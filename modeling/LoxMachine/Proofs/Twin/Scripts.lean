import LoxMachine.Proofs.Twin.Runs
import LoxMachine.Proofs.Twin.Running

/-!
# Scripts of twins

How a text is entered on a machine that runs nothing, and how its script ends; two new machines that
have entered texts are twins as far as the code of their scripts is alike.

Main statements: `Machine.runSource_begun` and `Heaps.amid_begun`.
-/

namespace LoxMachine

open Machine Syntax

/-! ## Texts are entered -/

/-- A function without arguments is entered. -/
def Machine.begun (m : Machine) (f : Function) : Machine :=
  let c : Closure := ⟨m.store.nextId, f, #[]⟩
  { m.setValues [.closure c] with
    store := { m.store with nextId := m.store.nextId + 1 }, frames := [⟨c, 0, 0⟩] }

section Begun

variable {m m' : Machine} {f : Function} {p : Program} {source : String}

theorem enter_apply (hframes : m.frames = []) (hvalues : m.values = []) (harity : f.arity = 0) :
    enter f m = .ok () (m.begun f) := by
  set c : Closure := ⟨m.store.nextId, f, #[]⟩
  set m₁ : Machine := { m with store := { m.store with nextId := m.store.nextId + 1 } }
  have hpush : push (.closure c) m₁ = .ok () (m₁.setValues [.closure c]) := by
    rw [push_apply, show m₁.values = [] from hvalues]
    exact if_pos (by decide)
  have hcall : call c 0 (m₁.setValues [.closure c]) = .ok () (m.begun f) := by
    rw [call_apply c 0 (by simp), if_neg (by simp [c, harity]), values_setValues,
      show (m₁.setValues [Value.closure c]).frames = [] from hframes]
    exact if_pos (by decide)
  change (push (.closure c) >>= fun _ => call c 0) m₁ = _
  rw [bind_apply, hpush]
  exact hcall

theorem hushed_recordListing (m : Machine) (title : String) (code : Chunk) :
    m.Hushed (m.recordListing title code) := by
  rw [recordListing]
  split
  · exact m.hushed_record _ _
  · exact .refl m

theorem hushed_recordRoutines (m : Machine) (rs : Array Routine) : m.Hushed (m.recordRoutines rs) := by
  rw [recordRoutines]
  refine Array.foldl_induction (motive := fun _ m' => m.Hushed m') (.refl m) fun i m' h => ?_
  exact h.trans (hushed_recordListing _ _ _)

/-- A text that is accepted is loaded and entered; all else that is said goes to the log. -/
theorem Machine.runSource_begun (hp : Program.compile m.store.chunks.size source = .ok p)
    (hframes : m.frames = []) (hvalues : m.values = []) :
    ∃ m₁, m.Hushed m₁ ∧ ∀ budget, m.runSource budget source =
      (.ofOutcome (((m₁.load p).begun p.main.function).run budget).1,
        (((m₁.load p).begun p.main.function).run budget).2) := by
  set m₁ := m.record .trace ("Got input string: " ++ source) with hm₁
  set m₂ := ((m₁.recordRoutines p.nested).recordListing "<script>" p.main.code).record .debug
    "Compiled script, running" with hm₂
  have h₁ : m.Hushed m₁ := m.hushed_record _ _
  have h₂ : m.Hushed m₂ := h₁.trans (((hushed_recordRoutines m₁ _).trans (hushed_recordListing _ _ _)).trans
    (hushed_record _ _ _))
  refine ⟨m₂, h₂, fun budget => ?_⟩
  have hp₁ : Program.compile m₁.store.chunks.size source = .ok p := hp
  have hprepare : m.prepare source = (.ok p.main.function, m₂.load p) := by
    rw [prepare]
    dsimp only
    rw [← hm₁, hp₁]
  obtain ⟨tree, -, -, -, hlaid⟩ := Program.script_of_compile hp
  have henter : enter p.main.function (m₂.load p) = .ok () ((m₂.load p).begun p.main.function) := by
    obtain ⟨c, heq, -, -⟩ := h₂
    rw [heq]
    exact enter_apply hframes hvalues (by rw [hlaid.main])
  rw [runSource, hprepare]
  dsimp only
  rw [interpret, henter]

/-- The entered script runs. -/
theorem Machine.live_begun {rs : Array Routine} {ℓ : Lineage} (hm : ∀ n, Idle rs ℓ n m)
    (hp : Program.compile m.store.chunks.size source = .ok p) (n : Nat) :
    Live (rs ++ p.routines) ℓ n ((m.load p).begun p.main.function) := by
  obtain ⟨tree, -, -, hlegal, hlaid⟩ := Program.script_of_compile hp
  rw [(hm 0).size_chunks] at hlaid
  have henter : enter p.main.function (m.load p) = .ok () ((m.load p).begun p.main.function) :=
    enter_apply (hm 0).frames (hm 0).values (by rw [hlaid.main])
  have := (hm n).enter_script hlaid hlegal
  rwa [Fine, henter] at this

theorem Machine.alive_begun (hm : Stage.idle.Sound m)
    (hp : Program.compile m.store.chunks.size source = .ok p) :
    ((m.load p).begun p.main.function).Alive :=
  have ⟨_, _, hm⟩ := hm
  ⟨_, _, live_begun hm hp⟩

theorem Machine.Hushed.idle (h : m.Hushed m') (hm : Stage.idle.Sound m) : Stage.idle.Sound m' := by
  obtain ⟨c, rfl, -, -⟩ := h
  obtain ⟨rs, ℓ, hm⟩ := hm
  exact ⟨rs, ℓ, fun n => (hm n).congr rfl rfl rfl rfl rfl⟩

end Begun

/-! ## The last answer -/

section Finish

variable {m m' : Machine} {f : Frame} {q : Nat} {v : Value} {vs : List Value}

/-- What is left of a machine when its last call is left, the answer taken off the stack. -/
def Machine.done (m : Machine) (base : Nat) (vs : List Value) : Machine :=
  (({ m with frames := [] }.setValues vs).closed base).setValues (vs.drop (vs.length - base))

theorem leave_last (hframes : m.frames = [f]) (hvalues : m.values = v :: vs) :
    leave m = .ok () (m.done f.base vs) ∨ ∃ e m', leave m = .error (.violation e) m' := by
  set m₁ : Machine := { m with frames := [] }.setValues vs with hm₁
  have hleave : leave m = (closeFrom f.base >>= fun _ => truncate f.base) m₁ := by
    rw [leave, bind_apply, pop_cons hvalues]
    simp only [bind_apply, get_apply, frames_setValues, hframes, modify_apply]
    rfl
  rw [hleave, bind_apply, closeFrom_apply]
  split
  · rename_i hclose
    split at hclose
    · cases hclose
    · cases hclose
      left
      rw [truncate_apply, values_closed, values_setValues]
      rfl
  · rename_i hclose
    split at hclose
    · cases hclose
      exact .inr ⟨_, _, rfl⟩
    · cases hclose

theorem Machine.Alive.tidy (h : m.Alive) : m.Tidy := by
  obtain ⟨rs, ℓ, h⟩ := h
  obtain ⟨w, f, fs, G, E, σ, Γ, -, -, R, -⟩ := h 0
  exact ⟨R.steady.opened, R.steady.descending⟩

/-- A script that answers ends the run. -/
theorem Machine.Alive.finishes (h : m.Alive) (hframes : m.frames = [f])
    (hi : (m.store.chunk f.closure.function).instr? f.ip = some (.ret, q)) :
    ∃ m₁ v vs, m.Hushed m₁ ∧ m.values = v :: vs ∧ 0 < vs.length ∧
      ∀ budget, m.run (budget + 1) = (.finished, m₁.done f.base vs) := by
  have hhushed := m.hushed_traceStep
  obtain ⟨rs, ℓ, hlive⟩ := hhushed.alive h
  obtain ⟨c, heq, -, -⟩ := hhushed
  have hframes₁ : m.traceStep.frames = [f] := by rw [heq]; exact hframes
  have hi₁ : (m.traceStep.store.chunk f.closure.function).instr? f.ip = some (.ret, q) := by rw [heq]; exact hi
  have hdeep : 1 < m.traceStep.values.length := ((hlive 1).ready hframes₁ hi₁).deep
  obtain ⟨v, vs, hvalues⟩ : ∃ v vs, m.traceStep.values = v :: vs :=
    List.exists_cons_of_length_pos (by omega)
  have hstep : Machine.step m.traceStep = .ok () (m.traceStep.done f.base vs) := by
    have hexec : Machine.step m.traceStep = leave (m.traceStep.goto q) := by
      rw [step_eq_exec hframes₁ hi₁, Instr.exec, bind_apply, moveTo_goto hframes₁]
    have hgoto : (m.traceStep.goto q).frames = [{ f with ip := q }] := frames_goto _ _ hframes₁
    rw [hexec]
    rcases leave_last hgoto hvalues with hleave | ⟨e, m', hleave⟩
    · exact hleave
    · rcases h.step with ⟨e', m₁, hstep⟩ | ⟨m₁, hstep, -⟩ <;> cases hstep.symm.trans (hexec.trans hleave)
  refine ⟨m.traceStep, v, vs, m.hushed_traceStep, by rw [← hvalues, heq]; rfl, ?_, fun budget => ?_⟩
  · rw [hvalues, List.length_cons] at hdeep
    exact Nat.lt_of_succ_lt_succ hdeep
  · rw [Machine.run, hstep]
    rfl

variable {S : Scene} {n : Nat} {B : Bond} {vs' : List Value}

/-- Both leave their scripts. -/
theorem Heaps.done (h : Heaps S n B m m') (hm : m.Tidy) (hm' : m'.Tidy) (hvs : B.Stacks vs vs') (base : Nat) :
    Heaps S n B (m.done base vs) (m'.done base vs') := by
  have hbefore : Heaps S n B ({ m with frames := [] }.setValues vs) ({ m' with frames := [] }.setValues vs') :=
    { h with }
  have hclosed := hbefore.closed { hm with } { hm' with } (by simpa only [values_setValues] using hvs) base
  exact { hclosed with }

/-- Both scripts have come to an answer. -/
def BothAnswer (c c' : Chunk) (r r' : Nat) : Prop :=
  ∃ q q', c.instr? r = some (.ret, q) ∧ c'.instr? r' = some (.ret, q')

/-- Scripts that have come to their last answers finish. -/
theorem Meets.finishes (h : Meets S n m m')
    (hexit : ∀ r r', S.scripts.exit r r' → BothAnswer S.scripts.left S.scripts.right r r')
    (hm : m.Alive) (hm' : m'.Alive) :
    ∃ m₁ m₁' B, (∀ budget, m.run (budget + 1) = (.finished, m₁)) ∧
      (∀ budget, m'.run (budget + 1) = (.finished, m₁')) ∧ Heaps S n B m₁ m₁' := by
  obtain ⟨B, f, f', A, hr⟩ := h
  obtain ⟨q, q', hi, hi'⟩ := hexit _ _ hr
  rw [← A.chunks.1] at hi
  rw [← A.chunks.2] at hi'
  obtain ⟨m₁, v, vs, hhushed, hvs, hpos, hrun⟩ := hm.finishes A.frames hi
  obtain ⟨m₁', v', vs', hhushed', hvs', -, hrun'⟩ := hm'.finishes A.frames' hi'
  refine ⟨_, _, B, hrun, hrun', ?_⟩
  have hstacks := A.values
  rw [hvs, hvs'] at hstacks
  cases hstacks with
  | bottom => cases hpos
  | cons _ hstacks =>
      rw [A.lineup.base]
      exact (A.heaps.hushed hhushed hhushed').done (hhushed.alive hm).tidy (hhushed'.alive hm').tidy hstacks _

end Finish
/-! ## Twins at the start -/

/-- Nothing has been made. -/
def Bond.none : Bond :=
  ⟨fun _ _ => False, fun _ _ => False⟩

section Start

variable {S : Scene} {n : Nat} {B : Bond} {m m' m₁ : Machine} {f g : Function}

/-- Two new machines, with their code. -/
theorem heaps_new (console : Console) {p p' : Program} (hleft : codes p.routines = S.left)
    (hright : codes p'.routines = S.right) :
    Heaps S n .none ((Machine.new console).load p) ((Machine.new console).load p') where
  left := Array.empty_append.trans hleft
  right := Array.empty_append.trans hright
  linked := nofun
  known := nofun
  single := nofun
  cells := nofun
  singleCell := nofun
  globals name := by
    have hglobals (p : Program) : ((Machine.new console).load p).globals =
        (∅ : Std.HashMap String Value).insert "clock" (.native (Store.newNative {} "clock" clock).1) := rfl
    rw [hglobals, hglobals, Std.HashMap.getElem?_insert]
    split
    · exact .some (.fixed trivial)
    · rw [Std.HashMap.getElem?_empty]
      exact .none
  methods _ _ := .none
  classes := rfl
  fields _ _ := .none
  objects := rfl
  natives := ⟨rfl, rfl⟩
  time := rfl
  output := rfl
  broken := rfl

theorem Heaps.begun (h : Heaps S n B m m') (f : Function) : Heaps S n B (m.begun f) m' :=
  { h with known := fun v v' hv => ⟨(h.known v v' hv).1.succ (Nat.le_succ _), (h.known v v' hv).2⟩ }

theorem Heaps.begun_right (h : Heaps S n B m m') (g : Function) : Heaps S n B m (m'.begun g) :=
  { h with known := fun v v' hv => ⟨(h.known v v' hv).1, (h.known v v' hv).2.succ (Nat.le_succ _)⟩ }

/-- Two machines that enter their scripts. -/
theorem Heaps.amid_begun (h : Heaps S n B m m') (hscript : S.scripts.script)
    (hleft : S.left[f.index]? = some S.scripts.left) (hright : S.right[g.index]? = some S.scripts.right)
    (hshares : ∀ k k', ¬ S.scripts.shares k k') :
    Amid S n B S.scripts ⟨⟨m.store.nextId, f, #[]⟩, 0, 0⟩ [] ⟨⟨m'.store.nextId, g, #[]⟩, 0, 0⟩ []
      (m.begun f) (m'.begun g) where
  frames := rfl
  frames' := rfl
  lineup := .script hscript ⟨hleft, hright, fun k k' hk => absurd hk (hshares k k')⟩ rfl rfl
  values := .bottom _ _
  heaps := (h.begun f).begun_right g

end Start

end LoxMachine
