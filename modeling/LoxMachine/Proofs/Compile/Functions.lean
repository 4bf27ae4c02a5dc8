import LoxMachine.Proofs.Compile.Statements

/-!
# Accepted functions

A function is compiled in a body of its own, with the bodies around it growing as its names are
resolved. The closure made of it lists its captures, which lead to captured locals and captures of
the body around it.
-/

namespace LoxMachine

open Syntax (IsIdentifier)
open Chunk (Agree)

theorem Layout.Parameters.raised {kind : BodyKind} {names : List String} {L L' : List Local}
    (h : Layout.Parameters kind names L) (hr : Body.Raised L L') : Layout.Parameters kind names L' := by
  induction h generalizing L' with
  | nil =>
      obtain ⟨⟨name, depth, captured⟩, L, hl, hL, rfl⟩ := List.forall₂_cons_left_iff.mp hr
      obtain rfl := List.forall₂_nil_left_iff.mp hL
      obtain rfl : name = _ := hl.name
      obtain rfl : depth = _ := hl.depth
      exact .nil
  | snoc hid _ ih =>
      obtain ⟨⟨name, depth, captured⟩, L, hl, hL, rfl⟩ := List.forall₂_cons_left_iff.mp hr
      obtain rfl : name = _ := hl.name
      obtain rfl : depth = _ := hl.depth
      exact .snoc hid (ih hL)

namespace Builder

variable {s s₁ s' : Builder} {u : Unit}

/-! ## Closures -/

theorem Accepts.of_emitCapture {c : Capture} (h : Accepts (Statement.emitCapture c) s u s') :
    ∃ line line', s' = s.withChunk ((s.body.chunk.write (if c.fromLocal then 1 else 0) line).write
      c.index.toUInt8 line') := by
  obtain ⟨_, s₁, h₁, h₂⟩ := h.bind
  obtain ⟨line, hchunk, heq⟩ := of_emitByte h₁
  obtain ⟨line', hchunk', heq'⟩ := of_emitByte h₂
  refine ⟨line, line', ?_⟩
  rw [heq', hchunk', hchunk, heq]
  rfl

/-- The captures of a closure, two bytes each. -/
theorem Accepts.of_captures {cs : List Capture} (h : Accepts (cs.forM Statement.emitCapture) s u s')
    (hcs : ∀ c ∈ cs, c.index < 256) :
    s' = s.withChunk s'.body.chunk ∧ Agree s.body.chunk s'.body.chunk 0 s.body.chunk.size ∧
      s'.body.chunk.size = s.body.chunk.size + 2 * cs.length ∧
      s'.body.chunk.captures? cs.length s.body.chunk.size = some cs ∧
      s'.body.chunk.constants = s.body.chunk.constants := by
  induction cs generalizing s with
  | nil =>
      obtain ⟨-, rfl⟩ := of_pure h
      exact ⟨rfl, Agree.refl _ _ _, rfl, rfl, rfl⟩
  | cons c cs ih =>
      obtain ⟨_, s₁, h₁, h₂⟩ := Accepts.bind (x := Statement.emitCapture c)
        (f := fun _ => cs.forM Statement.emitCapture) h
      obtain ⟨line, line', hs₁⟩ := of_emitCapture h₁
      obtain ⟨heq, hagree, hsize, hcaptures, hconstants⟩ := ih h₂ fun c hc => hcs c (List.mem_cons_of_mem _ hc)
      have hchunk := congrArg (·.body.chunk) hs₁
      simp only [withChunk] at hchunk
      have hsize₁ : s₁.body.chunk.size = s.body.chunk.size + 2 := by
        rw [hchunk, Chunk.size_write, Chunk.size_write]
      have hbyte (p : Nat) : p < s₁.body.chunk.size →
          s'.body.chunk.byte? p = s₁.body.chunk.byte? p := hagree.byte? p (Nat.zero_le p)
      refine ⟨?_, ?_, ?_, ?_, by rw [hconstants, hchunk]; rfl⟩
      · rw [heq, hs₁]
        rfl
      · refine Agree.trans ?_ (hagree.mono (Nat.le_refl 0) (by omega))
        rw [hchunk]
        refine (Chunk.agree_write ..).trans ((Chunk.agree_write _ _ _ 0).mono (Nat.le_refl 0) ?_)
        rw [Chunk.size_write]
        exact Nat.le_succ _
      · rw [hsize, hsize₁, List.length_cons]
        omega
      · have hsource : s'.body.chunk.byte? s.body.chunk.size = some (if c.fromLocal then 1 else 0) := by
          rw [hbyte _ (by omega), hchunk, Chunk.byte?_write, Chunk.byte?_write, Chunk.size_write,
            if_neg (by omega), if_pos rfl]
        have hindex : s'.body.chunk.byte? (s.body.chunk.size + 1) = some c.index.toUInt8 := by
          rw [hbyte _ (by omega), hchunk, Chunk.byte?_write, Chunk.size_write, if_pos rfl]
        rw [hsize₁] at hcaptures
        refine Chunk.captures?_succ.mpr ⟨_, _, cs, hsource, hindex, hcaptures, ?_, ?_⟩
        · cases c.fromLocal
          · exact .inl rfl
          · exact .inr rfl
        · rw [toNat_toUInt8 (hcs c List.mem_cons_self)]
          cases c with
          | mk index fromLocal => cases fromLocal <;> rfl

/-- A closure with its captures. -/
theorem Accepts.of_closure {f : Function} {cs : Array Capture} (h : Accepts (do
      emitWith .closure (← makeConstant (.function f))
      cs.forM Statement.emitCapture) s u s')
    (hcount : f.captures = cs.size) (hcs : ∀ c ∈ cs, c.index < 256)
    (hknown : Knows s.firstIndex s.finished f) : Emits s (.closure f cs.toList) s' := by
  obtain ⟨k, s₁, h₁, hrun⟩ := h.bind
  obtain ⟨_, s₂, h₂, h₃⟩ := hrun.bind
  have hp := of_makeConstant h₁
  obtain ⟨heq, hagree, hop, hoperand, hsize, hconstants⟩ := of_emitWith h₂
  rw [show cs.forM Statement.emitCapture = cs.toList.forM Statement.emitCapture by
    cases cs
    simp] at h₃
  obtain ⟨heq', hagree', hsize', hcaptures, hconstants'⟩ :=
    of_captures h₃ fun c hc => hcs c (by simpa using hc)
  rw [hp.size] at hop hoperand hsize hagree
  refine ⟨by rw [heq', heq, hp.eq]; rfl, ?_, ?_, fun v hv => ?_⟩
  · exact (hp.agree.trans hagree).trans (hagree'.mono (Nat.le_refl 0) (by omega))
  · have hop' : s'.body.chunk.byte? s.body.chunk.size = some Opcode.closure.toByte := by
      rw [hagree'.byte? _ (Nat.zero_le _) (by omega), hop]
    have hoperand' : s'.body.chunk.byte? (s.body.chunk.size + 1) = some k.toUInt8 := by
      rw [hagree'.byte? _ (Nat.zero_le _) (by omega), hoperand]
    have hconstant := hagree'.constant? _ _ (hconstants ▸ hp.constant)
    rw [hsize] at hcaptures hsize'
    rw [Chunk.instr?_eq_decode hop', Chunk.decode,
      constantAt?_of_byte hoperand' (constant_lt h₂.sound hp.constant) hconstant]
    simp only [hcount, ← Array.length_toList, hcaptures, Option.map_some, hsize']
  · rw [hconstants', hconstants] at hv
    exact hp.pool hknown v hv

/-! ## Parameters -/

/-- A body of its own has been opened within `s`, and its parameters have been read so far. -/
structure Opens (s : Builder) (kind : BodyKind) (name : String) (names : List String)
    (ts : List Token) (s' : Builder) : Prop where
  rest : s.rest = ts ++ s'.rest
  body : s'.body = { Body.new kind name with
    arity := names.length, depth := 1, locals := s'.body.locals }
  locals : Layout.Parameters kind names s'.body.locals
  outer : s'.outer = s.body :: s.outer
  classes : s'.classes = s.classes
  firstIndex : s'.firstIndex = s.firstIndex
  finished : s'.finished = s.finished

theorem Accepts.of_openBody {kind : BodyKind} {name : String}
    (h : Accepts (openBody kind name) s u s₁) (h' : Accepts beginScope s₁ u s') :
    Opens s kind name [] [] s' := by
  rw [of_beginScope h', of_modify h]
  exact ⟨rfl, rfl, .nil, rfl, rfl, rfl, rfl⟩

theorem Opens.reads {kind : BodyKind} {name : String} {names : List String} {ts : List Token}
    (h : Opens s kind name names ts s₁) (hr : s₁.Reads s') (hne : s₁.current.kind ≠ .eof) :
    Opens s kind name names (ts ++ [s₁.current]) s' := by
  have hrest := hr.rest hne
  have hbody := hr.body
  refine ⟨?_, ?_, ?_, ?_, ?_, ?_, ?_⟩
  · rw [h.rest, hrest, List.append_assoc]
    rfl
  · rw [hbody]
    exact h.body
  · rw [hbody]
    exact h.locals
  all_goals rw [hr.eq]
  · exact h.outer
  · exact h.classes
  · exact h.firstIndex
  · exact h.finished

theorem Accepts.of_parameter {kind : BodyKind} {name : String} {names : List String}
    {ts : List Token} (ho : Opens s kind name names ts s₁) (h : Accepts Statement.parameter s₁ u s') :
    s₁.current.kind = .identifier ∧
      Opens s kind name (names ++ [s₁.current.text]) (ts ++ [s₁.current]) s' := by
  have : Keeps (onBody fun b => ((), { b with arity := b.arity + 1 })) :=
    keeps_onBody (fun _ h => ⟨h.locals, h.captures, h.constants⟩) fun _ => rfl
  obtain ⟨_, s₂, h₁, hrun⟩ := h.bind
  obtain ⟨hbody, heq⟩ := of_onBody h₁
  have hbody := (Prod.mk.inj hbody).2
  have hrun := hrun.get_bind
  split at hrun
  · obtain ⟨_, _, herror, -⟩ := hrun.bind
    exact absurd herror not_errorAtCurrent
  · obtain ⟨k, s₃, h₂, h₃⟩ := hrun.bind
    have hdepth : s₂.body.depth = 1 := by
      rw [← hbody, ho.body]
    obtain ⟨hident, hid, s₄, hr, hcase⟩ := of_readVariable h₂ rfl
    have hcurrent : s₂.current = s₁.current := by rw [heq]
    rcases hcase with ⟨h0, -⟩ | ⟨-, rfl⟩
    · rw [hdepth] at h0
      cases h0
    have hdepth₃ : s₄.body.depth = 1 := by rw [hr.body, hdepth]
    rcases of_defineVariable h₃ with ⟨h0, -⟩ | ⟨-, rfl⟩
    · exact absurd (hdepth₃.symm.trans h0) (by simp)
    · rw [hcurrent] at hident hid ⊢
      refine ⟨hident, ?_⟩
      have hs : (s₄.declare s₁.current.text).initialized = { s₄ with
          body := { s₁.body with
            arity := s₁.body.arity + 1
            locals := ⟨s₁.current.text, some 1, false⟩ :: s₁.body.locals } } := by
        have hdepth₁ : s₁.body.depth = 1 := by rw [ho.body]
        simp only [initialized, declare, Body.markInitialized, hr.body, ← hbody, hdepth₁]
      rw [hs]
      have hrest := hr.rest (hcurrent ▸ Expression.ne_eof hident (by simp))
      rw [hcurrent] at hrest
      have hrest₂ : s₂.rest = s₁.rest := by rw [heq]; rfl
      have hsame : s₄.outer = s₁.outer ∧ s₄.classes = s₁.classes ∧ s₄.firstIndex = s₁.firstIndex ∧
          s₄.finished = s₁.finished := by
        rw [hr.eq, heq]
        exact ⟨rfl, rfl, rfl, rfl⟩
      refine ⟨?_, ?_, .snoc hid ho.locals, hsame.1.trans ho.outer, hsame.2.1.trans ho.classes,
        hsame.2.2.1.trans ho.firstIndex, hsame.2.2.2.trans ho.finished⟩
      · rw [ho.rest, ← hrest₂, hrest, List.append_assoc]
        rfl
      · rw [ho.body, List.length_append]
        rfl

/-- The parameters behind the first one. -/
theorem Accepts.of_moreParameters {kind : BodyKind} {name : String} {names : List String}
    {ts : List Token} {b : Nat} (ho : Opens s kind name names ts s₁)
    (h : Accepts (repeatWhile (accept .comma) Statement.parameter b) s₁ u s') :
    ∃ more us, Opens s kind name (names ++ more) (ts ++ us) s' ∧ ∀ {t : Token},
      t.kind = .identifier → Syntax.Derives (.parameters (t.text :: more)) (t :: us) := by
  induction b generalizing s₁ names ts with
  | zero =>
      obtain ⟨-, rfl⟩ := of_pure h
      exact ⟨[], [], by simpa using ho, .lastParameter⟩
  | succ b ih =>
      obtain ⟨go, s₂, h₁, hrun⟩ := Accepts.bind (by rw [repeatWhile] at h; exact h)
      rcases of_accept h₁ with ⟨rfl, hcomma, hr⟩ | ⟨rfl, -, rfl⟩
      · rw [if_pos rfl] at hrun
        obtain ⟨_, s₃, h₂, h₃⟩ := hrun.bind
        obtain ⟨hident, ho'⟩ := of_parameter (ho.reads hr (Expression.ne_eof hcomma nofun)) h₂
        obtain ⟨more, us, hall, hd⟩ := ih ho' h₃
        refine ⟨s₂.current.text :: more, s₁.current :: s₂.current :: us, by simpa using hall,
          fun ht => .parameter ht hcomma (hd hident)⟩
      · rw [if_neg nofun] at hrun
        obtain ⟨-, rfl⟩ := of_pure hrun
        exact ⟨[], [], by simpa using ho, .lastParameter⟩

theorem Accepts.of_parameters {parts : Statement.Parts} {kind : BodyKind} {name : String}
    (ho : Opens s kind name [] [] s₁) (h : Accepts (Statement.parameters parts) s₁ u s') :
    ∃ names l r ts, Opens s kind name names (l :: ts ++ [r]) s' ∧
      Syntax.Derives (.parameters names) ts ∧ l.kind = .leftParen ∧ r.kind = .rightParen := by
  obtain ⟨_, s₂, h₁, hrun⟩ := h.bind
  obtain ⟨hopen, hr⟩ := of_expect h₁
  have ho₂ := ho.reads hr (Expression.ne_eof hopen nofun)
  obtain ⟨close, s₃, h₂, hrun⟩ := hrun.bind
  obtain ⟨rfl, rfl⟩ := of_check h₂
  dsimp only at hrun
  obtain ⟨names, ts, s₄, ho₄, hd, hend⟩ : ∃ names ts s₄, Opens s kind name names (s₁.current :: ts) s₄ ∧
      Syntax.Derives (.parameters names) ts ∧ Accepts (expect .parametersClose) s₄ u s' := by
    split at hrun
    · exact ⟨[], [], s₃, ho₂, .noParameters, hrun⟩
    · obtain ⟨_, s₄, h₃, hcont⟩ := hrun.bind
      obtain ⟨_, s₅, h₄, h₅⟩ := hcont.bind
      obtain ⟨hident, ho₄⟩ := of_parameter ho₂ h₃
      obtain ⟨more, us, ho₅, hd⟩ := of_moreParameters ho₄ h₄
      exact ⟨_, _, s₅, ho₅, hd hident, h₅⟩
  obtain ⟨hclose, hr'⟩ := of_expect hend
  exact ⟨names, s₁.current, s₄.current, ts, ho₄.reads hr' (Expression.ne_eof hclose nofun), hd, hopen,
    hclose⟩

theorem settled_of_parameters {kind : BodyKind} {names : List String} {L : List Local}
    (h : Layout.Parameters kind names L) {l : Local} (hl : l ∈ L) :
    ∃ k, l.depth = some k ∧ k ≤ 1 := by
  induction h with
  | nil =>
      obtain rfl := List.mem_singleton.mp hl
      exact ⟨0, rfl, Nat.zero_le 1⟩
  | snoc _ _ ih =>
      rcases List.mem_cons.mp hl with rfl | hl
      · exact ⟨1, rfl, Nat.le_refl 1⟩
      · exact ih hl

theorem Opens.ready {kind : BodyKind} {name : String} {names : List String} {ts : List Token}
    (h : Opens s kind name names ts s') (hs : s.SuperKnown) : s'.Ready := by
  have hdepth : s'.body.depth = 1 := by rw [h.body]
  refine ⟨fun l hl => ?_, fun h0 => absurd (hdepth.symm.trans h0) nofun, fun hclass => ?_⟩
  · rw [hdepth]
    exact settled_of_parameters h.locals hl
  · rw [h.classes] at hclass
    obtain ⟨b, hb, hslot⟩ := hs hclass
    exact ⟨b, List.mem_cons_of_mem _ (h.outer ▸ hb), hslot⟩

/-! ## The end of a function -/

theorem Accepts.of_closeBody {b : Body} {outer : List Body} {r : Function × Array Capture}
    (h : Accepts closeBody s r s') (ho : s.outer = b :: outer) :
    r = (s.routine.function, s.body.captures) ∧
      s' = { s with body := b, outer, finished := s.finished.push s.routine, sound := s'.sound } := by
  have hrun := of_modifyGet h
  rw [ho] at hrun
  obtain ⟨rfl, rfl⟩ := Prod.mk.inj hrun
  exact ⟨rfl, rfl⟩

/-- The operand for a capture fits into a byte. -/
theorem index_lt {c : Capture} {b : Body} (hc : Body.Linked b c) (hb : b.Fits) : c.index < 256 := by
  unfold Body.Linked at hc
  split at hc
  · obtain ⟨l, hl, -⟩ := hc
    have := (List.getElem?_eq_some_iff.mp hl).1
    rw [List.length_reverse] at this
    exact Nat.lt_of_lt_of_le this hb.locals
  · exact Nat.lt_of_lt_of_le hc hb.captures

/-- The layout of a body that has just been compiled. -/
def layout (s : Builder) (around : List Body.Enclosing) : Layout where
  code := s.body.chunk
  captured := (List.range s.body.captures.size).map fun k =>
    (s.body.capturedName? s.outer k).getD ""
  captures := s.body.captures.toList
  kind := s.body.kind
  around

theorem completes_layout {routines : Array Routine} {around : List Body.Enclosing}
    (h : ∀ (k : Nat) (r : Routine), s.finished[k]? = some r → routines[s.firstIndex + k]? = some r)
    (ha : List.Forall₂ Body.Becomes s.outer around) :
    Completes routines (s.layout around) s.body.locals 0 s := by
  refine ⟨Agree.refl _ _ _, fun k name hk => ?_, fun k c hc => ?_, ha, rfl, Body.Raised.refl _, h⟩
  · obtain ⟨c, hc, -⟩ := Option.bind_eq_some_iff.mp hk
    have hlt := (Array.getElem?_eq_some_iff.mp hc).1
    simp [layout, List.getElem?_range hlt, hk]
  · rw [layout, Array.getElem?_toList, hc]

/-- Each capture of a body leads to the variable of its name. -/
theorem captures_layout {routines : Array Routine} {F : Layout} {L : List Local} {i : Nat} {b : Body}
    {outer : List Body} {around : List Body.Enclosing} (hs : s.Sound) (ho : s.outer = b :: outer) (hb : s'.body = b)
    (ho' : s'.outer = outer) (hc : Completes routines F L i s') :
    List.Forall₂ (F.Captures L) (s.layout around).captures (s.layout around).captured := by
  have hw := hs.wired
  rw [ho] at hw
  rw [List.forall₂_iff_get]
  refine ⟨by simp [layout], fun k hk hk' => ?_⟩
  have hsize : k < s.body.captures.size := by simpa [layout] using hk
  obtain ⟨name, hname⟩ := hw.capturedName? hsize
  have hget : (s.layout around).captured.get ⟨k, hk'⟩ = name := by
    simp [layout, ho, hname]
  rw [hget]
  obtain ⟨c, hat, hname⟩ := Option.bind_eq_some_iff.mp hname
  have hc' : (s.layout around).captures.get ⟨k, hk⟩ = c := by
    simpa [layout, hsize] using hat
  have hlinked := hw.1 c (Array.mem_of_getElem? hat)
  rw [hc', Layout.Captures]
  rw [Body.captureName?] at hname
  unfold Body.Linked at hlinked
  split at hlinked
  · rename_i hlocal
    rw [if_pos hlocal] at hname ⊢
    obtain ⟨l, hl, hcaptured⟩ := hlinked
    rw [hl] at hname
    obtain ⟨l', hl', hr⟩ := (hb ▸ hc.locals).localAt? hl
    exact ⟨l', hl', hr.name.trans (Option.some.inj hname), hr.captured hcaptured⟩
  · rename_i hlocal
    rw [if_neg hlocal] at hname ⊢
    refine hc.captured _ _ ?_
    rw [hb, ho', Body.capturedName?]
    exact hname

end Builder

namespace Statement

open Builder Syntax
open Expression (length_reads ne_eof)

/-! ## Bodies -/

section Compiled

variable {s s₁ s' : Builder} {kind : BodyKind} {name : String} {names : List String} {ss : List Stmt}
  {ts : List Token} {b : Body} {outer : List Body}

/-- A body that has been opened within `s` has been compiled to its end, with these parameters and
statements. -/
structure Compiled (s : Builder) (kind : BodyKind) (name : String) (names : List String) (ss : List Stmt)
    (ts : List Token) (s' : Builder) : Prop where
  rest : s.rest = ts ++ s'.rest
  kind_eq : s'.body.kind = kind
  name_eq : s'.body.name = name
  arity_eq : s'.body.arity = names.length
  classes : s'.classes = s.classes
  firstIndex : s'.firstIndex = s.firstIndex
  finished : ∀ (k : Nat) (r : Routine), s.finished[k]? = some r → s'.finished[k]? = some r
  outer : Body.GrowAll (s.body :: s.outer) s'.outer
  orderly : Orderly s.firstIndex s.finished s.body.chunk s.outer →
    Orderly s'.firstIndex s'.finished s'.body.chunk s'.outer
  code : ∀ {routines : Array Routine} {around : List Body.Enclosing},
    (∀ (k : Nat) (r : Routine), s'.finished[k]? = some r → routines[s'.firstIndex + k]? = some r) →
    List.Forall₂ Body.Becomes s'.outer around →
    ∃ L L' k k', Layout.Parameters kind names L ∧
      Layout.Runs routines (s'.layout around) 1 L (.code ss) 0 k L' ∧
      (s'.layout around).At k (Layout.implicitResult kind) k' ∧
      (s'.layout around).At k' .ret s'.body.chunk.size

theorem compiled_of_block {us : List Token} {s₂ : Builder} {u : Unit} (ho : Opens s kind name names ts s₁)
    (hblock : Does s₁ us s₂ (executes s₁.body.depth (.code ss))) (hret : Accepts emitReturn s₂ u s') :
    Compiled s kind name names ss (ts ++ us) s' := by
  have hbody := hblock.trans (of_emitReturn hret).does
  rw [List.append_nil] at hbody
  have hdepth : s₁.body.depth = 1 := by rw [ho.body]
  have hkind : s'.body.kind = kind := by
    rw [hbody.steps.kind, ho.body]
    rfl
  refine ⟨?_, hkind, hbody.steps.name.trans (congrArg Body.name ho.body),
    hbody.steps.arity.trans (congrArg Body.arity ho.body), hbody.steps.classes.trans ho.classes,
    hbody.steps.firstIndex.trans ho.firstIndex, fun k r hk => hbody.steps.finished k r (ho.finished ▸ hk),
    ho.outer ▸ hbody.steps.outer, fun horderly => hbody.steps.orderly ?_, fun hroutines haround => ?_⟩
  · rw [ho.rest, hbody.steps.rest, List.append_assoc]
  · rw [ho.firstIndex, ho.finished, ho.outer]
    exact horderly.open (by rw [ho.body]; rfl)
  · obtain ⟨new, old, heq, hold⟩ := hbody.steps.locals
    obtain ⟨k, L', hruns, rfl, -, k', hresult, hret⟩ :=
      hbody.code (completes_layout hroutines haround) (Nat.zero_le _)
    rw [show Body.oldest s₁.body.locals.length s'.body.locals = old by
        rw [heq]
        exact Body.oldest_append hold.length,
      hdepth, show s₁.body.chunk.size = 0 by rw [ho.body]; rfl] at hruns
    rw [show (s'.layout _).kind = kind from hkind] at hresult
    exact ⟨_, _, _, _, ho.locals.raised hold, hruns, hresult, hret⟩

/-- What has been compiled is a function that is laid out well. -/
theorem Compiled.laidOut (h : Compiled s kind name names ss ts s₁) {routines : Array Routine}
    (hroutines : ∀ (k : Nat) (r : Routine), (s₁.finished.push s₁.routine)[k]? = some r →
      routines[s₁.firstIndex + k]? = some r) : s₁.routine.LaidOut routines := by
  -- the functions around are seen as they are now
  obtain ⟨L, L', k, k', hparameters, hruns, hresult, hret⟩ :=
    h.code (fun k r hk => hroutines k r (getElem?_push_of_some hk)) (Body.becomes_enclosings s₁.outer)
  refine ⟨_, rfl, by simp [layout, routine], by simp [layout, routine], 1, ss, L, L', k, k', ?_, hruns, ?_,
    hret⟩
  · rw [hparameters.length_eq]
    exact congrArg (· + 1) h.arity_eq.symm
  · rw [show (s₁.layout _).kind = kind from h.kind_eq]
    exact hresult

/-- Closing the body leaves the one around it with some captures more. -/
theorem Compiled.steps (h : Compiled s kind name names ss ts s₁) (ho : s₁.outer = b :: outer)
    (hs' : s' = { s₁ with body := b, outer, finished := s₁.finished.push s₁.routine, sound := s'.sound }) :
    Steps 0 s ts s' := by
  obtain ⟨_, _, hgrow, hgrowAll, heq⟩ := List.forall₂_cons_left_iff.mp h.outer
  obtain ⟨rfl, rfl⟩ := List.cons.inj (ho.symm.trans heq)
  rw [hs']
  refine ⟨h.rest, hgrow.kind, hgrow.name, hgrow.arity, hgrow.depth, ⟨[], _, rfl, hgrow.locals⟩,
    hgrow.captures, ?_, Nat.le_of_eq (by rw [hgrow.chunk]), hgrowAll, h.classes, h.firstIndex,
    fun k r hk => getElem?_push_of_some (h.finished k r hk), fun horderly => ?_⟩
  · rw [hgrow.chunk]
    exact Agree.refl _ _ _
  · have hclosed := h.orderly horderly
    rw [ho] at hclosed
    exact Orderly.close (r := s₁.routine) hclosed fun _ => h.laidOut

/-- Making a closure of it runs the function. -/
theorem Compiled.runs (h : Compiled s kind name names ss ts s₁) (hsound : s₁.Sound)
    (ho : s₁.outer = b :: outer)
    (hs' : s' = { s₁ with body := b, outer, finished := s₁.finished.push s₁.routine, sound := s'.sound })
    {routines : Array Routine} {F : Layout} {L : List Local} {d p i j : Nat} (hc : Completes routines F L p s')
    (hi : F.At i (.closure s₁.routine.function s₁.body.captures.toList) j) :
    Layout.Runs routines F d L (.closure ⟨name, names, ss⟩ kind) i j L := by
  have hpushed (k : Nat) (r : Routine) (hk : (s₁.finished.push s₁.routine)[k]? = some r) :
      routines[s₁.firstIndex + k]? = some r := by
    have := hc.routines k r
    rw [hs'] at this
    exact this hk
  have haround : List.Forall₂ Body.Becomes s₁.outer (⟨L, F.captures⟩ :: F.around) := by
    have hb := hc.locals
    have hcaptures := hc.captures
    have hrest := hc.around
    rw [hs'] at hb hcaptures hrest
    rw [ho]
    exact .cons ⟨hb, hcaptures⟩ hrest
  obtain ⟨L₀, L₁, k, k', hparameters, hruns, hresult, hret⟩ :=
    h.code (fun k r hk => hpushed k r (getElem?_push_of_some hk)) haround
  refine .closure h.kind_eq rfl hi h.name_eq h.arity_eq ?_ ?_ hparameters hruns hresult hret
  · refine captures_layout hsound ho ?_ ?_ hc <;> rw [hs']
  · rw [← h.kind_eq]
    exact hpushed s₁.finished.size s₁.routine Array.getElem?_push_size

end Compiled

/-! ## Functions -/

section Rules

variable {n : Nat} {parts : Parts} [Keeps parts.expression] [Keeps parts.statement]
  [Keeps parts.declaration] (hparts : PartsSpec n parts) {s s₁ s' : Builder} {u : Unit}

set_option synthInstance.maxSize 4096

include hparts

/-- A function, from its name on. -/
theorem function_spec {kind : BodyKind} (hsuper : s.SuperKnown) (hn : s.rest.length ≤ n)
    (h : Accepts (function parts kind) s u s') :
    ∃ f ts, f.name = s.previous.text ∧ Does s ts s' (fun routines F L i j L' =>
      L' = L ∧ Layout.Runs routines F s.body.depth L (.closure f kind) i j L) ∧
      s'.body.locals.length = s.body.locals.length ∧
      ∀ {name : Token}, name.kind = .identifier → name.text = s.previous.text →
        Derives (.function f) (name :: ts) := by
  obtain ⟨text, s₀, h₀, hrun⟩ := h.bind
  obtain ⟨_, s₁, h₁, hrun⟩ := hrun.bind
  obtain ⟨_, s₂, h₂, hrun⟩ := hrun.bind
  obtain ⟨_, s₃, h₃, hrun⟩ := hrun.bind
  obtain ⟨_, s₄, h₄, hrun⟩ := hrun.bind
  obtain ⟨_, s₅, h₅, hrun⟩ := hrun.bind
  obtain ⟨_, s₆, h₆, hrun⟩ := hrun.bind
  obtain ⟨r, s₇, h₇, hcont⟩ := hrun.bind
  obtain ⟨hs₀, rfl⟩ := Accepts.of_lastText h₀
  subst s₀
  obtain ⟨names, l, r, ts, ho₃, hd, hopen, hclose⟩ :=
    Accepts.of_parameters (Accepts.of_openBody h₁ h₂) h₃
  obtain ⟨hbrace, hr⟩ := Accepts.of_expect h₄
  have ho := ho₃.reads hr (ne_eof hbrace nofun)
  have hlen := congrArg List.length ho.rest
  rw [List.length_append] at hlen
  obtain ⟨ss, us, rb, hblock, hdss, hrb⟩ := block_spec hparts (ho.ready hsuper) (by omega) h₅
  have hcompiled := compiled_of_block ho hblock h₆
  obtain ⟨b, outer, hgrow, -, ho₆⟩ := List.forall₂_cons_left_iff.mp hcompiled.outer
  obtain ⟨rfl, hs₇⟩ := Accepts.of_closeBody h₇ ho₆
  have hsteps := hcompiled.steps ho₆ hs₇
  have hsound := h₇.sound
  have hcs : ∀ c ∈ s₆.body.captures, c.index < 256 := by
    have hwired := hsound.wired
    rw [ho₆] at hwired
    exact fun c hc => index_lt (hwired.1 c hc) (hsound.fits b (by simp [ho₆]))
  have hknown : Knows s₇.firstIndex s₇.finished s₆.routine.function := by
    rw [hs₇]
    exact ⟨s₆.finished.size, s₆.routine, Array.getElem?_push_size, rfl, rfl⟩
  have hemit := Accepts.of_closure hcont rfl hcs hknown
  have hall := hsteps.trans (hemit.steps 0)
  rw [List.append_nil] at hall
  have hlocals : s'.body.locals.length = s.body.locals.length := by
    rw [hemit.locals, hs₇]
    exact hgrow.locals.length
  refine ⟨⟨s.previous.text, names, ss⟩, _, rfl,
    ⟨hall, declared_same hall hlocals, fun {routines F L i} hc hi => ?_⟩, hlocals,
    fun hident hname => ?_⟩
  · rw [Body.oldest_length (hc.length.trans hlocals)]
    have hsize₇ : s₇.body.chunk.size = s.body.chunk.size := by
      rw [hs₇]
      exact congrArg Chunk.size hgrow.chunk
    have hi := hemit.has hc (hsize₇ ▸ hi)
    rw [hsize₇] at hi
    exact ⟨rfl, hcompiled.runs hsound ho₆ hs₇ (hc.before_same (hemit.steps _) (by rw [hemit.locals])) hi⟩
  · have := Derives.function hident hopen hclose hbrace hrb hd hdss
    simpa [hname] using this

/-! ## Declarations of functions -/

theorem functionDeclaration_spec (hready : s.Ready) (hn : s₁.rest.length ≤ n) (hr : s.Reads s₁)
    (hk : s.current.kind = .kwFun) (h : Accepts (functionDeclaration parts) s₁ u s') :
    ∃ st, DeclarationOf s st s' := by
  have hquiet := hr.quiet (ne_eof hk nofun)
  have hready₁ := hquiet.ready hready
  have hdepth := hquiet.steps.depth
  obtain ⟨k, s₂, h₁, hrun⟩ := h.bind
  obtain ⟨_, s₃, h₂, hrun⟩ := hrun.bind
  obtain ⟨_, s₄, h₃, h₄⟩ := hrun.bind
  obtain ⟨hident, hid, s₅, hr₂, hcase⟩ := Accepts.of_readVariable h₁ rfl
  have hquiet₂ := hr₂.quiet (ne_eof hident nofun)
  have hn₂ := h₁.length_rest
  have hn₃ := h₂.length_rest
  have hmark := Accepts.of_markInitialized h₂
  rcases hcase with ⟨h0, hp⟩ | ⟨h0, rfl⟩
  · have h0₂ : s₂.body.depth = 0 := by rw [(hp.steps 0).depth, hquiet₂.steps.depth, h0]
    rw [if_pos h0₂] at hmark
    subst s₃
    have hall := (hquiet.trans hquiet₂).trans hp.quiet
    obtain ⟨f, ts, hf, hdoes, hlen, hd⟩ :=
      function_spec hparts (hall.ready hready).super (by omega) h₃
    rcases Accepts.of_defineVariable h₄ with ⟨-, h₅⟩ | ⟨hne, -⟩
    · have hconst := hdoes.steps.agree.constant? _ _ hp.constant
      have hemit := Accepts.of_emitName .defineGlobal h₅ hconst fun _ _ => rfl
      have hname : s₂.previous = s₁.current := by rw [hp.eq, ← hr₂.previous]; rfl
      rw [hname] at hf hd
      refine ⟨.function f, _, (hall.does (hdoes.trans hemit.adds.does)).map ?_, ?_⟩
      · rintro routines F L i j L' ⟨k, L₁, ⟨rfl, hruns⟩, rfl, hi⟩
        rw [h0₂] at hruns
        rw [executes, ← hdepth, h0]
        exact .functionGlobal (hf ▸ hid) rfl hruns (hf ▸ hi)
      · have := Derives.functionDeclaration hk (hd hident rfl)
        simpa using this
    · exact absurd (hdoes.steps.depth.trans h0₂) hne
  · have hdepth₅ : s₅.body.depth = s.body.depth := by rw [hr₂.body, hdepth]
    have h0₂ : (s₅.declare s₁.current.text).body.depth ≠ 0 := by
      rw [show (s₅.declare s₁.current.text).body.depth = s₅.body.depth from rfl, hr₂.body]
      exact h0
    rw [if_neg h0₂] at hmark
    subst s₃
    have hsuper := ((hquiet.trans hquiet₂).steps.trans
      (steps_initialized s₅ s₁.current.text)).superKnown hready.super
    obtain ⟨f, ts, hf, hdoes, hlen, hd⟩ := function_spec hparts hsuper (by omega) h₃
    obtain ⟨hdoes', hsame⟩ := hdoes.declares hlen (by rw [hr₂.body]; exact h0)
    rcases Accepts.of_defineVariable h₄ with ⟨h0', -⟩ | ⟨-, h₅⟩
    · exact absurd (hdoes.steps.depth.symm.trans h0') h0₂
    · rw [hsame] at h₅
      subst s'
      have hname : (s₅.declare s₁.current.text).initialized.previous = s₁.current := hr₂.previous
      rw [hname] at hf hd
      refine ⟨.function f, _, ((hquiet.trans hquiet₂).does hdoes').map ?_, ?_⟩
      · rintro routines F L i j L' ⟨captured, rfl, hruns⟩
        have hdepth' : (s₅.declare s₁.current.text).initialized.body.depth = s.body.depth := hdepth₅
        rw [hdepth', hdepth₅] at hruns
        rw [executes, hdepth₅]
        rw [← hf] at hid hruns ⊢
        exact .functionLocal hid (by rw [← hdepth]; exact h0) hruns
      · have := Derives.functionDeclaration hk (hd hident rfl)
        simpa using this

/-! ## Methods -/

theorem method_spec (hsuper : s.SuperKnown) (hn : s.rest.length ≤ n)
    (h : Accepts (method parts) s u s') : ∃ f ts, Does s ts s' (fun routines F L i j L' => L' = L ∧
      ∃ k, Layout.Runs routines F s.body.depth L (.closure f (methodKind f.name)) i k L ∧
        F.At k (.method f.name) j) ∧ s'.body.locals.length = s.body.locals.length ∧
      Derives (.function f) ts := by
  obtain ⟨_, s₁, h₁, hrun⟩ := h.bind
  obtain ⟨name, s₂, h₂, hrun⟩ := hrun.bind
  obtain ⟨k, s₃, h₃, hrun⟩ := hrun.bind
  obtain ⟨_, s₄, h₄, h₅⟩ := hrun.bind
  obtain ⟨hident, hr⟩ := Accepts.of_expect h₁
  obtain ⟨rfl, rfl⟩ := Accepts.of_lastText h₂
  have hp := Accepts.of_nameConstant h₃
  have hquiet := (hr.quiet (ne_eof hident nofun)).trans hp.quiet
  have hlen := hquiet.steps.length_rest
  obtain ⟨f, ts, hf, hdoes, hsame, hd⟩ :=
    function_spec hparts (hquiet.steps.superKnown hsuper) (by omega) h₄
  have hname : s₃.previous = s.current := by rw [hp.eq, ← hr.previous]; rfl
  have hconst := hdoes.steps.agree.constant? _ _ hp.constant
  have hemit := Accepts.of_emitName .method h₅ hconst fun _ _ => rfl
  rw [hname] at hf hd
  rw [hr.previous] at hdoes hemit
  refine ⟨f, _, (hquiet.does (hdoes.trans hemit.adds.does)).map ?_, ?_, ?_⟩
  · rintro routines F L i j L' ⟨k, L₁, ⟨rfl, hruns⟩, rfl, hi⟩
    rw [hquiet.steps.depth] at hruns
    refine ⟨rfl, k, ?_, hf ▸ hi⟩
    rw [methodKind, hf]
    exact hruns
  · rw [hemit.locals, hsame, hquiet.locals]
  · have := hd hident rfl
    simpa using this

theorem methods_spec {b : Nat} (hsuper : s.SuperKnown) (hn : s.rest.length ≤ n)
    (h : Accepts (repeatWhile insideBraces (method parts) b) s u s') :
    ∃ fs ts, Does s ts s' (fun routines F L i j L' => L' = L ∧
      Layout.Runs routines F s.body.depth L (.methods fs) i j L) ∧
      s'.body.locals.length = s.body.locals.length ∧ Derives (.methods fs) ts := by
  have hnone (s : Builder) : Does s [] s fun routines F L i j L' => L' = L ∧
      Layout.Runs routines F s.body.depth L (.methods []) i j L := by
    refine ⟨Steps.refl 0 s, declared_same (Steps.refl 0 s) rfl, fun hc _ => ?_⟩
    rw [Body.oldest_length hc.length]
    exact ⟨rfl, .noMethods⟩
  induction b generalizing s with
  | zero =>
      obtain ⟨-, rfl⟩ := Accepts.of_pure h
      exact ⟨[], [], hnone s', rfl, .noMethods⟩
  | succ b ih =>
      obtain ⟨go, s₁, h₁, h₂⟩ := Accepts.bind (by rw [repeatWhile] at h; exact h)
      obtain ⟨brace, s₂, h₃, h₄⟩ := h₁.bind
      obtain ⟨rfl, rfl⟩ := Accepts.of_check h₃
      obtain ⟨eof, s₃, h₅, h₆⟩ := h₄.bind
      obtain ⟨rfl, rfl⟩ := Accepts.of_check h₅
      obtain ⟨-, rfl⟩ := Accepts.of_pure h₆
      split at h₂
      · obtain ⟨_, s₄, h₇, h₈⟩ := h₂.bind
        obtain ⟨f, ts, hdoes, hlen, hd⟩ := method_spec hparts hsuper hn h₇
        have hrest := hdoes.steps.length_rest
        obtain ⟨fs, us, hdoes', hlen', hd'⟩ :=
          ih (hdoes.steps.superKnown hsuper) (by omega) h₈
        rw [hdoes.steps.depth] at hdoes'
        refine ⟨f :: fs, _, (hdoes.trans hdoes').map ?_, hlen'.trans hlen, .methods hd hd'⟩
        rintro routines F L i j L' ⟨k, L₁, ⟨rfl, l, hruns, hi⟩, rfl, hruns'⟩
        exact ⟨rfl, .methods hruns hi hruns'⟩
      · obtain ⟨-, rfl⟩ := Accepts.of_pure h₂
        exact ⟨[], [], hnone s', rfl, .noMethods⟩

end Rules

end Statement

end LoxMachine
