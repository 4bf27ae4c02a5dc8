import LoxMachine.Proofs.Compile.Expressions

/-!
# Scopes and declarations

Code that may leave declared variables on the stack (`Does`), and what the ends of scopes and the
declarations do to it. Between statements all locals are initialized, and outside of all scopes
there are none to be named (`Ready`).
-/

namespace LoxMachine.Builder

open Chunk (Agree)
open Syntax (IsIdentifier)

/-- A builder between statements. -/
structure Ready (s : Builder) : Prop where
  settled : ∀ l ∈ s.body.locals, ∃ k, l.depth = some k ∧ k ≤ s.body.depth
  outside : s.body.depth = 0 →
    s.outer = [] ∧ ∀ name, IsIdentifier name → Body.slot? name s.body.locals = none
  super : s.SuperKnown

/-- What the code between two offsets does, in a function with some locals before and after it. -/
abbrev Deed :=
  Array Routine → Layout → (L : List Local) → (i j : Nat) → (L' : List Local) → Prop

/-- Between `s` and `s'` code has been added that is as `P` says in every function that completes
`s'`, and variables of the innermost scope have been declared. -/
structure Does (s : Builder) (ts : List Token) (s' : Builder) (P : Deed) : Prop where
  steps : Steps 0 s ts s'
  declared : ∃ new old, s'.body.locals = new ++ old ∧ Body.Raised s.body.locals old ∧
    (∀ l ∈ new, l.depth = some s.body.depth) ∧ (s.body.depth = 0 → new = [])
  code : ∀ {routines F L' i}, Completes routines F L' i s' → i ≤ s.body.chunk.size →
    P routines F (Body.oldest s.body.locals.length L') s.body.chunk.size s'.body.chunk.size L'

section Does

variable {s s' s'' : Builder} {ts ts' : List Token} {P Q : Deed}

theorem Ready.of_steps (h : s.Ready) {i : Nat} (hs : Steps i s ts s')
    (hd : ∃ new old, s'.body.locals = new ++ old ∧ Body.Raised s.body.locals old ∧
      (∀ l ∈ new, l.depth = some s.body.depth) ∧ (s.body.depth = 0 → new = [])) : s'.Ready := by
  obtain ⟨new, old, heq, hr, hnew, hzero⟩ := hd
  refine ⟨fun l hl => ?_, fun h0 => ?_, hs.superKnown h.super⟩
  · rw [hs.depth]
    rw [heq] at hl
    rcases List.mem_append.mp hl with hl | hl
    · exact ⟨_, hnew l hl, Nat.le_refl _⟩
    · obtain ⟨l₀, hl₀, hr₀⟩ := hr.mem hl
      obtain ⟨k, hk, hle⟩ := h.settled l₀ hl₀
      exact ⟨k, hr₀.depth.trans hk, hle⟩
  · rw [hs.depth] at h0
    obtain ⟨houter, hslot⟩ := h.outside h0
    refine ⟨?_, fun name hid => ?_⟩
    · have := hs.outer
      rw [houter] at this
      exact List.forall₂_nil_left_iff.mp this
    · rw [heq, hzero h0, List.nil_append, hr.slot?]
      exact hslot name hid

theorem Does.ready (h : Does s ts s' P) (hr : s.Ready) : s'.Ready :=
  hr.of_steps h.steps h.declared

theorem declared_same {i : Nat} (hs : Steps i s ts s')
    (hlen : s'.body.locals.length = s.body.locals.length) :
    ∃ new old, s'.body.locals = new ++ old ∧ Body.Raised s.body.locals old ∧
      (∀ l ∈ new, l.depth = some s.body.depth) ∧ (s.body.depth = 0 → new = []) :=
  ⟨[], _, rfl, hs.raised hlen, fun _ => nofun, fun _ => rfl⟩

theorem Ready.of_same {i : Nat} (h : s.Ready) (hs : Steps i s ts s')
    (hlocals : s'.body.locals = s.body.locals) : s'.Ready :=
  h.of_steps hs (declared_same hs (by rw [hlocals]))

theorem Quiet.ready (h : Quiet s ts s') (hr : s.Ready) : s'.Ready :=
  hr.of_steps h.steps (declared_same h.steps h.locals)

theorem Adds.does {A : Layout → List Local → Nat → Nat → Prop} (h : Adds s ts s' A) :
    Does s ts s' fun _ F L i j L' => L' = L ∧ A F L i j := by
  refine ⟨h.steps, declared_same h.steps h.locals, fun hc hi => ?_⟩
  rw [Body.oldest_length (hc.length.trans h.locals)]
  exact ⟨rfl, h.code hc hi⟩

theorem Adds.ready {A : Layout → List Local → Nat → Nat → Prop} (h : Adds s ts s' A)
    (hr : s.Ready) : s'.Ready :=
  h.does.ready hr

theorem Does.map (h : Does s ts s' P) (f : ∀ routines F L i j L', P routines F L i j L' →
    Q routines F L i j L') : Does s ts s' Q :=
  ⟨h.steps, h.declared, fun hc hi => f _ _ _ _ _ _ (h.code hc hi)⟩

/-- The code stands where the code so far ends. -/
theorem Does.starts (h : Does s ts s' P) :
    Does s ts s' fun routines F L i j L' => i = s.body.chunk.size ∧ P routines F L i j L' :=
  ⟨h.steps, h.declared, fun hc hi => ⟨rfl, h.code hc hi⟩⟩

theorem Does.same (h : Does s ts s' P)
    (hlen : s'.body.locals.length = s.body.locals.length) :
    Does s ts s' fun routines F L i j L' => L' = L ∧ P routines F L i j L' := by
  refine ⟨h.steps, h.declared, fun hc hi => ⟨?_, h.code hc hi⟩⟩
  exact (Body.oldest_length (hc.length.trans hlen)).symm

theorem Does.trans (h : Does s ts s' P) (h' : Does s' ts' s'' Q) :
    Does s (ts ++ ts') s'' fun routines F L i j L' =>
      ∃ k L₁, P routines F L i k L₁ ∧ Q routines F L₁ k j L' := by
  refine ⟨h.steps.trans h'.steps, ?_, fun hc hi => ?_⟩
  · obtain ⟨new, old, heq, hr, hnew, hzero⟩ := h.declared
    obtain ⟨new', old', heq', hr', hnew', hzero'⟩ := h'.declared
    rw [heq] at hr'
    obtain ⟨new₁, old₁, rfl, hn, ho⟩ := hr'.append
    rw [h.steps.depth] at hnew' hzero'
    refine ⟨new' ++ new₁, old₁, by rw [heq', List.append_assoc], hr.trans ho, fun l hl => ?_,
      fun h0 => ?_⟩
    · rcases List.mem_append.mp hl with hl | hl
      · exact hnew' l hl
      · obtain ⟨l₀, hl₀, hr₀⟩ := hn.mem hl
        exact hr₀.depth.trans (hnew l₀ hl₀)
    · rw [hzero' h0, List.nil_append]
      have hlen := hn.length
      rw [hzero h0] at hlen
      exact List.eq_nil_of_length_eq_zero hlen
  · have hc' := hc.before (h'.steps.mono (Nat.zero_le _))
    have hcode := h.code hc' hi
    rw [Body.oldest_oldest h.steps.length_locals
      (Nat.le_trans h'.steps.length_locals (Nat.le_of_eq hc.length.symm))] at hcode
    exact ⟨_, _, hcode, h'.code hc (Nat.le_trans hi h.steps.size)⟩

theorem Quiet.does (h : Quiet s ts s') (h' : Does s' ts' s'' P) : Does s (ts ++ ts') s'' P := by
  have hadds : Adds s ts s' fun _ _ i j => i = j :=
    ⟨h.steps, h.locals, fun _ _ => h.size.symm⟩
  refine (hadds.does.trans h').map ?_
  rintro routines F L i j L' ⟨k, L₁, ⟨rfl, rfl⟩, hp⟩
  exact hp

theorem Does.quiet (h : Does s ts s' P) (h' : Quiet s' ts' s'') : Does s (ts ++ ts') s'' P := by
  have hadds : Adds s' ts' s'' fun _ _ i j => i = j :=
    ⟨h'.steps, h'.locals, fun _ _ => h'.size.symm⟩
  refine (h.trans hadds.does).map ?_
  rintro routines F L i j L' ⟨k, L₁, hp, rfl, rfl⟩
  exact hp

end Does

/-! ## Jumps -/

section Jumps

variable {s₀ s₁ s₂ s₃ s₄ s₅ s' : Builder} {ts ts' : List Token} {P Q : Deed}

/-- A jump over code to its end. -/
theorem Does.jumpOver {op : Opcode} (hw : Awaits s₀ op s₁) (h : Does s₁ ts s₂ P)
    (hp : Patches s₂ s₀.body.chunk.size s') :
    Does s₀ ts s' fun routines F L i j L' => ∃ k, (op = .jump → F.At i (.jump j) k) ∧
      (op = .jumpIfFalse → F.At i (.jumpIfFalse j) k) ∧ P routines F L k j L' := by
  have hsteps := hp.after (hw.steps.trans h.steps) (Nat.le_refl _)
  refine ⟨hsteps, ?_, fun hc hi => ?_⟩
  · rw [hp.locals, ← hw.locals, ← hw.steps.depth]
    exact h.declared
  · have hinstr := hp.instr hw h.steps (Nat.zero_le _)
    have hsize := hw.size
    rw [hp.patched.size]
    refine ⟨_, fun hop => hc.has hi (hinstr.1 hop), fun hop => hc.has hi (hinstr.2 hop), ?_⟩
    have hc₂ := (hc.mono (Nat.le_trans hi (Nat.le_add_right _ 3))).before_same hp.steps
      (by rw [hp.locals])
    have := h.code hc₂ (Nat.le_of_eq hsize.symm)
    rwa [hw.locals] at this

/-- Code for either case of a condition: the first case jumps over the second. -/
theorem Does.branch (hw : Awaits s₀ .jumpIfFalse s₁) (h : Does s₁ ts s₂ P)
    (hlen : s₂.body.locals.length = s₁.body.locals.length) (hw' : Awaits s₂ .jump s₃)
    (hp : Patches s₃ s₀.body.chunk.size s₄) (h' : Does s₄ ts' s₅ Q)
    (hlen' : s₅.body.locals.length = s₄.body.locals.length)
    (hp' : Patches s₅ s₂.body.chunk.size s') :
    Does s₀ (ts ++ ts') s' (fun routines F L i j L' => L' = L ∧ ∃ k m t,
      F.At i (.jumpIfFalse t) k ∧ P routines F L k m L ∧ F.At m (.jump j) t ∧ Q routines F L t j L) ∧
    s'.body.locals.length = s₀.body.locals.length := by
  have hsize := hw.size
  have hsize' := hw'.size
  have hsize₄ := hp.patched.size
  have hle := h.steps.size
  have hfirst : Steps 0 s₁ ts s₃ := by
    have := h.steps.trans hw'.steps
    rwa [List.append_nil] at this
  have hsteps₄ := hp.after (hw.steps.trans hfirst) (Nat.le_refl _)
  have hsteps := hp'.after (hsteps₄.trans h'.steps) (by omega)
  have hlocals₂ : s₂.body.locals.length = s₀.body.locals.length := by rw [hlen, hw.locals]
  have hlocals₄ : s₄.body.locals.length = s₀.body.locals.length := by
    rw [hp.locals, hw'.locals, hlocals₂]
  have hlocals : s'.body.locals.length = s₀.body.locals.length := by
    rw [hp'.locals, hlen', hlocals₄]
  refine ⟨⟨hsteps, declared_same hsteps hlocals, fun {routines F L' i} hc hi => ?_⟩, hlocals⟩
  have hL := hc.length
  rw [Body.oldest_length (hL.trans hlocals)]
  refine ⟨rfl, s₁.body.chunk.size, s₂.body.chunk.size, s₃.body.chunk.size, ?_, ?_, ?_, ?_⟩
  · -- the second patch lies behind the first jump
    have hagree : Agree s₄.body.chunk s'.body.chunk 0 s₁.body.chunk.size :=
      (h'.steps.agree.mono (Nat.le_refl _) (by omega)).trans
        (hp'.patched.agree (.inr (by omega)))
    exact hc.has hi (hagree.instr? (Nat.zero_le _) (Nat.le_refl _)
      ((hp.instr hw hfirst (Nat.zero_le _)).2 rfl))
  · have hagree : Agree s₂.body.chunk s'.body.chunk (s₀.body.chunk.size + 3) s₂.body.chunk.size :=
      (((hw'.steps.mono (Nat.zero_le _)).trans hp.steps).trans
        (h'.steps.mono (Nat.zero_le _))).agree.trans (hp'.patched.agree (.inr (Nat.le_succ _)))
    have hc₄ := hc.mono (j := s₀.body.chunk.size + 3) (by omega)
    have hsteps₂ : Steps (s₀.body.chunk.size + 3) s₂ ts' s' := by
      have hmid := ((hw'.steps.mono (Nat.zero_le _)).trans hp.steps).trans
        (h'.steps.mono (Nat.zero_le _))
      rw [hp'.eq]
      exact { hmid with
        agree := hagree
        size := Nat.le_trans hmid.size (Nat.le_of_eq hp'.patched.size.symm)
        orderly := fun ho => (hmid.orderly ho).pool (pool_of_eq hp'.patched.constants) }
    have hc₂ := hc₄.before_same hsteps₂ (by rw [hlocals, hlocals₂])
    have := h.code hc₂ (Nat.le_of_eq hsize.symm)
    rwa [Body.oldest_length (hL.trans (hlocals.trans (by rw [hw.locals])))] at this
  · have := hc.has (p := s₂.body.chunk.size) (by omega) ((hp'.instr (i := s₀.body.chunk.size + 3) hw'
      (hp.steps.trans (h'.steps.mono (Nat.zero_le _))) (by omega)).1 rfl)
    rwa [← hp'.patched.size] at this
  · have hc₅ := (hc.mono (j := s₂.body.chunk.size + 3) (by omega)).before_same hp'.steps
      (by rw [hp'.locals])
    have := h'.code hc₅ (by omega)
    rw [Body.oldest_length (hL.trans (hlocals.trans hlocals₄.symm)), hsize₄] at this
    rwa [hp'.patched.size]

end Jumps

/-! ## Scopes -/

/-- A builder with one more scope open. -/
def inScope (s : Builder) : Builder :=
  { s with body := { s.body with depth := s.body.depth + 1 } }

theorem Accepts.of_onBody {α : Type} {s s' : Builder} {f : Body → α × Body} {a : α}
    (h : Accepts (onBody f) s a s') : f s.body = (a, s'.body) ∧ s' = { s with body := s'.body } := by
  have hrun := of_modifyGet h
  obtain ⟨rfl, rfl⟩ := Prod.mk.inj hrun
  exact ⟨rfl, rfl⟩

theorem Accepts.of_beginScope {s s' : Builder} {u : Unit} (h : Accepts beginScope s u s') :
    s' = s.inScope := by
  obtain ⟨hbody, heq⟩ := of_onBody h
  rw [heq, ← (Prod.mk.inj hbody).2]
  rfl

theorem Ready.inScope {s : Builder} (h : s.Ready) : s.inScope.Ready := by
  refine ⟨fun l hl => ?_, nofun, h.super.congr rfl rfl rfl⟩
  obtain ⟨k, hk, hle⟩ := h.settled l hl
  exact ⟨k, hk, Nat.le_succ_of_le hle⟩

theorem Accepts.of_drops {s s' : Builder} {gone : List Local} {u : PUnit}
    (h : Accepts (gone.forM fun l => emit (if l.captured then .closeUpvalue else .pop)) s u s') :
    Adds s [] s' fun F _ i j => F.Drops gone i j := by
  induction gone generalizing s with
  | nil =>
      obtain ⟨-, rfl⟩ := of_pure h
      exact ⟨Steps.refl 0 s', rfl, fun _ _ => rfl⟩
  | cons l gone ih =>
      obtain ⟨_, s₁, h₁, h₂⟩ := Accepts.bind
        (x := emit (if l.captured then .closeUpvalue else .pop))
        (f := fun _ => gone.forM fun l => emit (if l.captured then .closeUpvalue else .pop)) h
      have hemit := of_emit (if l.captured then .closeUpvalue else .pop) h₁ fun _ _ => by
        cases l.captured <;> rfl
      exact hemit.adds.trans (ih h₂)

/-- The innermost scope ends where its variables do. -/
theorem span_scope {d : Nat} {new old : List Local} (hnew : ∀ l ∈ new, l.depth = some (d + 1))
    (hold : ∀ l ∈ old, ∃ k, l.depth = some k ∧ k ≤ d) :
    (new ++ old).span (fun l => l.depth.all (d < ·)) = (new, old) := by
  rw [List.span_eq_takeWhile_dropWhile]
  induction new with
  | nil =>
      cases old with
      | nil => rfl
      | cons l old =>
          obtain ⟨k, hk, hle⟩ := hold l List.mem_cons_self
          simp [hk, Nat.not_lt.mpr hle]
  | cons l new ih =>
      have hl := hnew l List.mem_cons_self
      have := ih fun l hl => hnew l (List.mem_cons_of_mem _ hl)
      simp only [Prod.mk.injEq] at this
      simp [hl, this]

theorem Accepts.current_endScope {s s' : Builder} {u : Unit} (h : Accepts endScope s u s') :
    s'.current = s.current := by
  obtain ⟨gone, s₁, hleave, hdrops⟩ := h.bind
  rw [(of_drops hdrops).steps.current, (of_onBody hleave).2]

/-- A scope of its own: what it declares is taken off the stack at its end. -/
theorem Does.scope {s s₁ s' : Builder} {ts : List Token} {P : Deed} {u : Unit} (hready : s.Ready)
    (h : Does s.inScope ts s₁ P) (he : Accepts endScope s₁ u s') :
    Does s ts s' (fun routines F L i j L' =>
      L' = L ∧ ∃ new k, P routines F L i k (new ++ L) ∧ F.Drops new k j) ∧
    s'.body.locals.length = s.body.locals.length := by
  obtain ⟨gone, s₂, hleave, hdrops⟩ := he.bind
  obtain ⟨new, old, heq, hr, hnew, -⟩ := h.declared
  have hspan := span_scope (d := s.body.depth) hnew fun l hl => by
    obtain ⟨l₀, hl₀, hr₀⟩ := hr.mem hl
    obtain ⟨k, hk, hle⟩ := hready.settled l₀ hl₀
    exact ⟨k, hr₀.depth.trans hk, hle⟩
  have hdepth : s₁.body.depth - 1 = s.body.depth := by
    rw [h.steps.depth]
    rfl
  obtain ⟨rfl, rfl⟩ : new = gone ∧
      s₂ = { s₁ with body := { s₁.body with depth := s.body.depth, locals := old } } := by
    obtain ⟨hbody, hs₂⟩ := Accepts.of_onBody hleave
    simp only [Body.leaveScope, hdepth, heq, hspan, Prod.mk.injEq] at hbody
    rw [hs₂, ← hbody.2]
    exact ⟨hbody.1, rfl⟩
  have hadds := Accepts.of_drops hdrops
  have hsteps : Steps 0 s ts
      { s₁ with body := { s₁.body with depth := s.body.depth, locals := old } } :=
    { h.steps with depth := rfl, locals := ⟨[], old, rfl, hr⟩ }
  have hlen : s'.body.locals.length = s.body.locals.length := hadds.locals.trans hr.length
  have hall : Steps 0 s ts s' := by
    have := hsteps.trans hadds.steps
    rwa [List.append_nil] at this
  refine ⟨⟨hall, declared_same hall hlen, fun {routines F L' i} hc hi => ?_⟩, hlen⟩
  rw [Body.oldest_length (hc.length.trans hlen)]
  have hc₂ := hc.before_same (hadds.steps.mono (Nat.zero_le _)) hadds.locals
  have hc₁ : Completes routines F (new ++ L') i s₁ :=
    { hc₂ with
      captured := hc₂.captured
      locals := heq ▸ List.rel_append (Body.Raised.refl new) hc₂.locals }
  have hcode := h.code hc₁ hi
  rw [show Body.oldest s.inScope.body.locals.length (new ++ L') = L' from
    Body.oldest_append (hc.length.trans hlen)] at hcode
  exact ⟨rfl, new, _, hcode, hadds.code hc (Nat.le_trans hi h.steps.size)⟩

/-! ## Declarations -/

/-- A builder with a local whose initializer comes next. -/
def declare (s : Builder) (name : String) : Builder :=
  { s with body := { s.body with locals := ⟨name, none, false⟩ :: s.body.locals } }

theorem addLocal_run (name : String) (s : Builder) : addLocal name s =
    if s.body.locals.length < Body.maxLocals then ((), s.declare name) else error .tooManyLocals s := by
  have honBody {α : Type} (f : Body → α × Body) :
      onBody f s = ((f s.body).1, { s with body := (f s.body).2 }) := rfl
  rw [addLocal, bind_of_run (honBody _), Body.addLocal?]
  by_cases hroom : s.body.locals.length < Body.maxLocals
  · rw [if_pos hroom, if_pos hroom]
    rfl
  · rw [if_neg hroom, if_neg hroom]
    rfl

/-- A builder whose newest local is initialized. -/
def initialized (s : Builder) : Builder :=
  { s with body := s.body.markInitialized }

namespace Accepts

variable {s s' : Builder} {u : Unit}

theorem of_inGlobalScope {b : Bool} (h : Accepts inGlobalScope s b s') :
    s' = s ∧ b = decide (s.body.depth = 0) := by
  obtain ⟨rfl, rfl⟩ := of_pure h.get_bind
  exact ⟨rfl, rfl⟩

theorem of_addLocal {name : String} (h : Accepts (addLocal name) s u s') : s' = s.declare name := by
  have hrun := h.run
  rw [addLocal_run] at hrun
  split at hrun
  · exact (Prod.mk.inj hrun).2.symm
  · exact absurd ⟨h.sound, hrun, h.clean⟩ not_error

theorem of_declareVariable (h : Accepts declareVariable s u s') :
    s.body.depth = 0 ∧ s' = s ∨ s.body.depth ≠ 0 ∧ s' = s.declare s.previous.text := by
  obtain ⟨b, s₁, h₁, h₂⟩ := h.bind
  obtain ⟨rfl, rfl⟩ := of_inGlobalScope h₁
  split at h₂
  · rename_i h0
    exact .inl ⟨of_decide_eq_true h0, (of_pure h₂).2⟩
  · rename_i h0
    refine .inr ⟨fun h => h0 (decide_eq_true h), ?_⟩
    obtain ⟨name, s₂, h₃, h₄⟩ := h₂.bind
    obtain ⟨rfl, rfl⟩ := of_lastText h₃
    have h₄ := h₄.get_bind
    split at h₄
    · obtain ⟨_, _, herror, -⟩ := h₄.bind
      exact absurd herror not_error
    · exact of_addLocal h₄

/-- The name of a variable: outside of all scopes it becomes a constant, elsewhere a local. -/
theorem of_readVariable {e : Expectation} {k : Nat} (h : Accepts (readVariable e) s k s')
    (he : e.kind = .identifier) :
    s.current.kind = .identifier ∧ IsIdentifier s.current.text ∧ ∃ s₁, s.Reads s₁ ∧
      (s.body.depth = 0 ∧ Pools s₁ (.string s.current.text) k s' ∨
        s.body.depth ≠ 0 ∧ s' = s₁.declare s.current.text) := by
  obtain ⟨_, s₁, h₁, h₂⟩ := h.bind
  obtain ⟨hkind, hr⟩ := of_expect h₁
  rw [he] at hkind
  obtain ⟨_, s₂, h₃, h₄⟩ := h₂.bind
  obtain ⟨global, s₃, h₅, h₆⟩ := h₄.bind
  obtain ⟨rfl, rfl⟩ := of_inGlobalScope h₅
  refine ⟨hkind, (h.sound.proper s.current (by simp)).identifier hkind, s₁, hr, ?_⟩
  have hdepth : s₁.body.depth = s.body.depth := by rw [hr.body]
  rcases of_declareVariable h₃ with ⟨h0, rfl⟩ | ⟨h0, rfl⟩
  · rw [if_pos (decide_eq_true h0)] at h₆
    obtain ⟨text, s₄, h₇, h₈⟩ := h₆.bind
    obtain ⟨rfl, rfl⟩ := of_lastText h₇
    rw [hr.previous] at h₈
    exact .inl ⟨hdepth ▸ h0, of_nameConstant h₈⟩
  · have hne : ¬ decide ((s₁.declare s₁.previous.text).body.depth = 0) = true := fun h =>
      h0 (of_decide_eq_true h)
    rw [if_neg hne] at h₆
    obtain ⟨-, rfl⟩ := of_pure h₆
    rw [hr.previous]
    exact .inr ⟨hdepth ▸ h0, rfl⟩

theorem of_markInitialized (h : Accepts markInitialized s u s') :
    s' = if s.body.depth = 0 then s else s.initialized := by
  have hk : Keeps (onBody fun b => ((), b.markInitialized)) := keeps_markInitialized
  obtain ⟨b, s₁, h₁, h₂⟩ := h.bind
  obtain ⟨rfl, rfl⟩ := of_inGlobalScope h₁
  split at h₂
  · rename_i h0
    rw [if_pos (of_decide_eq_true h0)]
    exact (of_pure h₂).2
  · rename_i h0
    rw [if_neg fun h => h0 (decide_eq_true h)]
    obtain ⟨hb, heq⟩ := of_onBody h₂
    rw [heq, ← (Prod.mk.inj hb).2]
    rfl

theorem of_defineVariable {k : Nat} (h : Accepts (defineVariable k) s u s') :
    s.body.depth = 0 ∧ Accepts (emitWith .defineGlobal k) s u s' ∨
      s.body.depth ≠ 0 ∧ s' = s.initialized := by
  obtain ⟨b, s₁, h₁, h₂⟩ := h.bind
  obtain ⟨rfl, rfl⟩ := of_inGlobalScope h₁
  split at h₂
  · rename_i h0
    exact .inl ⟨of_decide_eq_true h0, h₂⟩
  · rename_i h0
    have hne : s₁.body.depth ≠ 0 := fun h => h0 (decide_eq_true h)
    have := of_markInitialized h₂
    rw [if_neg hne] at this
    exact .inr ⟨hne, this⟩

end Accepts

theorem steps_declare (s : Builder) (name : String) : Steps 0 s [] (s.declare name) :=
  { Steps.refl 0 s with locals := ⟨[⟨name, none, false⟩], _, rfl, Body.Raised.refl _⟩ }

/-- A local variable, initialized by the code that `h` is about. -/
theorem Adds.declares {s s₁ : Builder} {name : String} {ts : List Token}
    {A : Layout → List Local → Nat → Nat → Prop} (h : Adds (s.declare name) ts s₁ A)
    (hdepth : s.body.depth ≠ 0) :
    Does s ts s₁.initialized fun _ F L i j L' =>
      ∃ captured, L' = ⟨name, some s.body.depth, captured⟩ :: L ∧ A F (⟨name, none, captured⟩ :: L) i j := by
  have hr := h.steps.raised h.locals
  obtain ⟨l, old, heq, hl, hold⟩ : ∃ l old, s₁.body.locals = l :: old ∧
      Local.Raised ⟨name, none, false⟩ l ∧ Body.Raised s.body.locals old := by
    have hlocals : (s.declare name).body.locals = ⟨name, none, false⟩ :: s.body.locals := rfl
    rw [hlocals] at hr
    obtain ⟨l, old, hl, hold, heq⟩ := List.forall₂_cons_left_iff.mp hr
    exact ⟨l, old, heq, hl, hold⟩
  have hd : s₁.body.depth = s.body.depth := h.steps.depth
  have hmark : s₁.initialized =
      { s₁ with body := { s₁.body with locals := { l with depth := some s.body.depth } :: old } } := by
    simp only [initialized, Body.markInitialized, heq, hd]
  rw [hmark]
  have hsteps := (steps_declare s name).trans h.steps
  refine ⟨{ hsteps with locals := ⟨[_], old, rfl, hold⟩ },
    ⟨[_], old, rfl, hold, fun x hx => ?_, fun h0 => absurd h0 hdepth⟩,
    fun {routines F L' i} hc hi => ?_⟩
  · obtain rfl := List.mem_singleton.mp hx
    rfl
  · obtain ⟨l', L, hl', hL, rfl⟩ := List.forall₂_cons_left_iff.mp hc.locals
    have hlen : L.length = s.body.locals.length :=
      (Body.Raised.length hL).trans (Body.Raised.length hold)
    have holdest : Body.oldest s.body.locals.length (l' :: L) = L := Body.oldest_cons hlen
    have hc₁ : Completes routines F (⟨name, none, l'.captured⟩ :: L) i s₁ :=
      { hc with
        captured := hc.captured
        locals := by
          rw [heq]
          exact .cons ⟨hl.name.symm, hl.depth.symm, hl'.captured⟩ hL }
    rw [holdest]
    refine ⟨l'.captured, ?_, h.code hc₁ hi⟩
    obtain ⟨name', depth', captured'⟩ := l'
    have hname : name' = name := hl'.name.trans hl.name
    have hdepth' : depth' = some s.body.depth := hl'.depth
    rw [hname, hdepth']

theorem initialized_eq {s : Builder} {l : Local} {old : List Local}
    (h : s.body.locals = l :: old) (hl : l.depth = some s.body.depth) : s.initialized = s := by
  have hmark : { l with depth := some s.body.depth } = l := by rw [← hl]
  simp only [initialized, Body.markInitialized, h]
  rw [hmark, ← h]

theorem steps_initialized (s : Builder) (name : String) :
    Steps 0 s [] (s.declare name).initialized :=
  { Steps.refl 0 s with
    locals := ⟨[⟨name, some s.body.depth, false⟩], _, rfl, Body.Raised.refl _⟩ }

/-- A variable that is initialized before the code that may refer to it. -/
theorem Does.declares {s s' : Builder} {name : String} {ts : List Token}
    {P : Array Routine → Layout → List Local → Nat → Nat → Prop}
    (h : Does (s.declare name).initialized ts s' fun routines F L i j L' =>
      L' = L ∧ P routines F L i j)
    (hlen : s'.body.locals.length = s.body.locals.length + 1) (hdepth : s.body.depth ≠ 0) :
    Does s ts s' (fun routines F L i j L' => ∃ captured,
      L' = ⟨name, some s.body.depth, captured⟩ :: L ∧ P routines F L' i j) ∧ s'.initialized = s' := by
  have hr := h.steps.raised hlen
  obtain ⟨l, old, hl, hold, heq⟩ := List.forall₂_cons_left_iff.mp
    (show Body.Raised (⟨name, some s.body.depth, false⟩ :: s.body.locals) s'.body.locals from hr)
  refine ⟨⟨(steps_initialized s name).trans h.steps, ⟨[l], old, heq, hold, fun x hx => ?_, fun h0 => absurd h0 hdepth⟩,
    fun {routines F L' i} hc hi => ?_⟩, ?_⟩
  · obtain rfl := List.mem_singleton.mp hx
    exact hl.depth
  · obtain ⟨-, hp⟩ := h.code hc hi
    rw [show Body.oldest (s.declare name).initialized.body.locals.length L' = L' from
      Body.oldest_length (hc.length.trans hlen)] at hp
    obtain ⟨⟨name', depth', captured'⟩, L, hl', hL, rfl⟩ :=
      List.forall₂_cons_left_iff.mp (heq ▸ hc.locals)
    obtain rfl : name' = name := hl'.name.trans hl.name
    obtain rfl : depth' = some s.body.depth := hl'.depth.trans hl.depth
    refine ⟨captured', ?_, hp⟩
    rw [Body.oldest_cons ((Body.Raised.length hL).trans (Body.Raised.length hold))]
  · have hd : s'.body.depth = s.body.depth := h.steps.depth
    exact initialized_eq heq (hd ▸ hl.depth)

end LoxMachine.Builder
