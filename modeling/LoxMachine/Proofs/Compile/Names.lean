import LoxMachine.Proofs.Compile.Emit

/-!
# Names

Reading and assigning variables. What a name stands for in a builder (`Refers`) it stands for in
every function that completes the builder.
-/

namespace LoxMachine.Builder

open Chunk (Agree Patched)

def Variable.access (name : String) : Variable → Access
  | .local n => .local n
  | .captured n => .captured n
  | .global _ => .global name

/-- What a name stands for, as far as it has been compiled. -/
def Refers (s : Builder) (name : String) : Variable → Prop
  | .local n => Body.slot? name s.body.locals = some n
  | .captured n =>
    Body.slot? name s.body.locals = none ∧ s.body.capturedName? s.outer n = some name ∧
      ∃ c, s.body.captures[n]? = some c ∧ Body.Leads name (s.outer.map Body.enclosing) c
  | .global k =>
    Body.slot? name s.body.locals = none ∧ s.body.chunk.constants[k]? = some (.string name) ∧
      ∀ b ∈ s.outer, Body.slot? name b.locals = none

namespace Refers

variable {s s' : Builder} {name : String} {v : Variable} {i : Nat} {ts : List Token}

theorem steps (h : Refers s name v) (hs : Steps i s ts s')
    (hlen : s'.body.locals.length = s.body.locals.length) : Refers s' name v := by
  have hslot := (hs.raised hlen).slot? name
  cases v with
  | «local» n => exact hslot.trans h
  | captured n =>
      obtain ⟨hnone, hname, c, hc, hleads⟩ := h
      exact ⟨hslot.trans hnone, Body.capturedName?_grows hs.captures hs.outer hname, c,
        hs.captures n c hc, hleads.growAll hs.outer⟩
  | global k =>
      refine ⟨hslot.trans h.1, hs.agree.constant? _ _ h.2.1, fun b hb => ?_⟩
      obtain ⟨b₀, hb₀, hg⟩ := hs.outer.of_mem hb
      exact (hg.locals.slot? name).trans (h.2.2 b₀ hb₀)

theorem finds (h : Refers s name v) {routines : Array Routine} {F : Layout} {L : List Local}
    (hc : Completes routines F L i s) : F.Finds L name (v.access name) := by
  have hslot := hc.locals.slot? name
  cases v with
  | «local» n => exact .local (hslot.trans h)
  | captured n =>
      obtain ⟨hnone, hname, c, hcapture, hleads⟩ := h
      exact .captured (hslot.trans hnone) (hc.captured _ _ hname) (hc.captures _ _ hcapture)
        (hleads.becomes hc.around)
  | global k =>
      refine .global (hslot.trans h.1) fun E hE => ?_
      obtain ⟨b, hb, hE⟩ := Body.becomes_of_mem hc.around hE
      exact (hE.locals.slot? name).trans (h.2.2 b hb)

/-- Code that follows may refer to the name. -/
theorem adds (h : Refers s name v) {P : Layout → List Local → Nat → Nat → Prop}
    (ha : Adds s ts s' P) :
    Adds s ts s' fun F L i j => F.Finds L name (v.access name) ∧ P F L i j :=
  ⟨ha.steps, ha.locals, fun hc hi =>
    ⟨h.finds (hc.before_same (ha.steps.mono (Nat.zero_le _)) ha.locals), ha.code hc hi⟩⟩

theorem operand_lt (h : Refers s name v) (hs : s.Sound) : v.operand < 256 := by
  have hf := hs.fits _ List.mem_cons_self
  cases v with
  | «local» n => exact Nat.lt_of_lt_of_le (Body.slot?_lt_length h) hf.locals
  | captured n =>
      obtain ⟨-, -, c, hc, -⟩ := h
      exact Nat.lt_of_lt_of_le (Array.getElem?_eq_some_iff.mp hc).1 hf.captures
  | global k => exact Accepts.constant_lt hs h.2.1

end Refers

namespace Accepts

variable {s s' : Builder} {name : String} {v : Variable} {u : Unit}

theorem of_emitGet (h : Accepts (emitWith v.getOp v.operand) s u s') (hv : Refers s name v) :
    Emits s (v.access name).get s' := by
  have hlt := hv.operand_lt h.sound
  cases v with
  | «local» n => exact of_emitNumber .getLocal h hlt fun _ _ => rfl
  | captured n => exact of_emitNumber .getUpvalue h hlt fun _ _ => rfl
  | global k => exact of_emitName .getGlobal h hv.2.1 fun _ _ => rfl

theorem of_emitSet (h : Accepts (emitWith v.setOp v.operand) s u s') (hv : Refers s name v) :
    Emits s (v.access name).set s' := by
  have hlt := hv.operand_lt h.sound
  cases v with
  | «local» n => exact of_emitNumber .setLocal h hlt fun _ _ => rfl
  | captured n => exact of_emitNumber .setUpvalue h hlt fun _ _ => rfl
  | global k => exact of_emitName .setGlobal h hv.2.1 fun _ _ => rfl

end Accepts

/-- `s'` is `s` with a name resolved. -/
structure Resolves (s : Builder) (name : String) (v : Variable) (s' : Builder) : Prop where
  steps : Steps 0 s [] s'
  size : s'.body.chunk.size = s.body.chunk.size
  locals : s'.body.locals.length = s.body.locals.length
  refers : Refers s' name v
  previous : s'.previous = s.previous
  isGlobal : (v.access name).IsGlobal →
    Body.slot? name s.body.locals = none ∧ ∀ b ∈ s.outer, Body.slot? name b.locals = none
  alone : s.outer = [] → Body.slot? name s.body.locals = none → v.access name = .global name

theorem Resolves.quiet {s s' : Builder} {name : String} {v : Variable} (h : Resolves s name v s') :
    Quiet s [] s' :=
  ⟨h.steps, h.size, h.locals⟩

theorem Resolves.pool {s s₁ s' : Builder} {name : String} {k : Nat} (hs : Steps 0 s [] s₁)
    (hsize : s₁.body.chunk.size = s.body.chunk.size) (hprevious : s₁.previous = s.previous)
    (hlen : s₁.body.locals.length = s.body.locals.length)
    (hslot : Body.slot? name s₁.body.locals = none)
    (habsent : Body.slot? name s.body.locals = none ∧ ∀ b ∈ s.outer, Body.slot? name b.locals = none)
    (hp : Pools s₁ (.string name) k s') : Resolves s name (.global k) s' := by
  have hall := hs.trans (hp.steps 0)
  refine ⟨hall, hp.size.trans hsize, ?_, ⟨?_, hp.constant, fun b hb => ?_⟩, ?_, fun _ => habsent,
    fun _ _ => rfl⟩
  · rw [hp.locals, hlen]
  · rw [hp.locals, hslot]
  · obtain ⟨b₀, hb₀, hg⟩ := hall.outer.of_mem hb
    exact (hg.locals.slot? name).trans (habsent.2 b₀ hb₀)
  · rw [hp.eq]
    exact hprevious

namespace Accepts

variable {s s' : Builder} {name : String} {v : Variable} {u : Unit}

/-- Following a name outwards. -/
theorem of_resolveOutside {r : Body.Resolution} (h : Accepts (resolveOutside name) s r s') :
    Body.Resolved name s.body s.outer r s'.body s'.outer ∧
      s' = { s with body := s'.body, outer := s'.outer } := by
  have hrun := of_modifyGet h
  obtain ⟨rfl, rfl⟩ := Prod.mk.inj hrun
  exact ⟨Body.resolve_spec rfl, rfl⟩

theorem of_resolve (h : Accepts (resolve name) s v s') : Resolves s name v s' := by
  have h := h.get_bind
  cases hslot : Body.slot? name s.body.locals with
  | some slot =>
      rw [hslot] at h
      obtain ⟨rfl, rfl⟩ := of_pure h
      exact ⟨Steps.refl 0 s', rfl, rfl, hslot, rfl, False.elim, fun _ h => nomatch h.symm.trans hslot⟩
  | none =>
      rw [hslot] at h
      obtain ⟨r, s₁, h₁, h₂⟩ := h.bind_of inferInstance fun r => by cases r <;> infer_instance
      obtain ⟨hr, heq⟩ := of_resolveOutside h₁
      have hsteps : Steps 0 s [] s₁ := by
        refine ⟨?_, hr.body.kind, hr.body.name, hr.body.arity, hr.body.depth,
          ⟨[], _, rfl, hr.body.locals⟩, hr.body.captures, ?_, ?_, hr.around, ?_, ?_, ?_, fun ho => ?_⟩
        · rw [heq]
          rfl
        · rw [hr.body.chunk]
          exact Agree.refl _ _ _
        · exact Nat.le_of_eq (congrArg Chunk.size hr.body.chunk).symm
        · rw [heq]
        · rw [heq]
        · rw [heq]
          exact fun _ _ => id
        · have ho' := ho.growAll hr.around
          rw [← hr.body.chunk] at ho'
          rw [heq]
          exact ho'
      have hlen := hr.body.locals.length
      have hslot₁ := (hr.body.locals.slot? name).trans hslot
      have hprevious : s₁.previous = s.previous := by rw [heq]
      cases r with
      | found i =>
          obtain ⟨rfl, rfl⟩ := of_pure h₂
          exact ⟨hsteps, by rw [hr.body.chunk], hlen, ⟨hslot₁, hr.found i rfl, hr.leads i rfl⟩,
            hprevious, False.elim, fun hnil _ => nomatch hr.alone hnil⟩
      | absent =>
          have h₂ := h₂.get_bind
          split at h₂
          · obtain ⟨_, _, herror, -⟩ := h₂.bind
            exact absurd herror not_error
          · obtain ⟨k, s₂, h₃, h₄⟩ := h₂.bind
            obtain ⟨rfl, rfl⟩ := of_pure h₄
            exact .pool hsteps (by rw [hr.body.chunk]) hprevious hlen hslot₁
              ⟨hslot, hr.absent rfl⟩ (of_nameConstant h₃)
      | full =>
          obtain ⟨_, _, herror, -⟩ := h₂.bind
          exact absurd herror not_error

end Accepts

/-- `s'` is `s` with a name read. -/
structure Fetches (s : Builder) (name : String) (a : Access) (s' : Builder) : Prop where
  adds : Adds s [] s' fun F L i j => F.Finds L name a ∧ F.At i a.get j
  previous : s'.previous = s.previous
  isGlobal : a.IsGlobal →
    Body.slot? name s.body.locals = none ∧ ∀ b ∈ s.outer, Body.slot? name b.locals = none
  alone : s.outer = [] → Body.slot? name s.body.locals = none → a = .global name

theorem Accepts.of_readNamed {s s' : Builder} {name : String} {u : Unit}
    (h : Accepts (readNamed name) s u s') : ∃ a, Fetches s name a s' := by
  obtain ⟨v, s₁, h₁, h₂⟩ := h.bind
  have hr := of_resolve h₁
  have he := of_emitGet h₂ hr.refers
  have hlen : s'.body.locals.length = s₁.body.locals.length := by rw [he.locals]
  refine ⟨v.access name, ⟨hr.steps.trans (he.steps 0), hlen.trans hr.locals, fun hc hi => ?_⟩, ?_,
    hr.isGlobal, hr.alone⟩
  · refine ⟨hr.refers.finds (hc.before_same (he.steps _) hlen), ?_⟩
    rw [← hr.size]
    exact he.has hc (hr.size ▸ hi)
  · rw [he.eq]
    exact hr.previous

end LoxMachine.Builder
