import LoxMachine.Proofs.Machine.Effect
import LoxMachine.Proofs.Typing.Safety

/-!
# A program underway

The states that a new machine passes through while it runs a program (`Underway`), with the history
of the classes made on the way. Whatever the budgets are that the run is given in pieces, it passes
through these (`Underway.run`). In each of them the next instruction finds a shape that suits it
(`Live.view`).
-/

namespace LoxMachine

open Machine

/-- One instruction has been executed. Before it, the host may have set the clock, written to the
log and taken what had been printed. -/
def Machine.Steps (m m' : Machine) : Prop :=
  ∃ time console, Machine.step { m with time, console } = .ok () m'

inductive Underway (p : Program) : Lineage → Machine → Prop where
  | entered {console m} : Machine.enter p.main.function ((Machine.new console).load p) = .ok () m →
      Underway p .start m
  | next {ℓ m m'} : Underway p ℓ m → m.Steps m' → Underway p (ℓ.next m) m'

/-! ## Every state of a run -/

section Run

variable {p : Program} {ℓ : Lineage} {m m' : Machine} {source : String}

theorem Machine.steps_traceStep {u : Unit} (h : Machine.step m.traceStep = .ok u m') : m.Steps m' := by
  rw [m.alike_traceStep] at h
  exact ⟨m.time, m.traceStep.console, h⟩

theorem Machine.Steps.frames_ne_nil (h : m.Steps m') : m.frames ≠ [] := by
  intro hnil
  obtain ⟨time, console, hrun⟩ := h
  have hread : readByte { m with time, console } =
      .error (.violation .missingFrame) { m with time, console } := by
    simp [readByte, hnil]
  rw [Machine.step, bind_apply, hread] at hrun
  cases hrun

/-- A step has the effect of the next instruction. -/
theorem Machine.Steps.effect {f : Frame} {fs : List Frame} {ins : Instr} {q : Nat} (h : m.Steps m')
    (hframes : m.frames = f :: fs)
    (hi : (m.store.chunk f.closure.function).instr? f.ip = some (ins, q)) :
    ∃ time console, Effect f q ins { m with time, console } m' := by
  obtain ⟨time, console, hrun⟩ := h
  exact ⟨time, console, effect_of_step (m := { m with time, console }) hframes hi hrun⟩

/-- A run that is not over has come to a state on the way, and so has one that is finished. -/
theorem Underway.run {o : Outcome} {budget : Nat} (h : Underway p ℓ m)
    (hrun : m.run budget = (o, m')) (ho : ∀ f, o ≠ .failed f) : ∃ ℓ', Underway p ℓ' m' := by
  have hends : (∀ f, (m.run budget).1 ≠ .failed f) → ∃ ℓ', Underway p ℓ' (m.run budget).2 := by
    refine run_of_invariant (P := fun m => ∃ ℓ, Underway p ℓ m)
      (Q := fun o m => (∀ f, o ≠ .failed f) → ∃ ℓ, Underway p ℓ m) ?_ ?_ ?_ ?_ ⟨ℓ, h⟩ budget
    · rintro m m' ⟨ℓ, h⟩ hstep -
      exact ⟨_, h.next (steps_traceStep hstep)⟩
    · exact fun h _ => h
    · rintro m m' ⟨ℓ, h⟩ hstep - -
      exact ⟨_, h.next (steps_traceStep hstep)⟩
    · exact fun _ _ ho => absurd rfl (ho _)
  rw [hrun] at hends
  exact hends ho

/-- A text that is accepted is loaded. -/
theorem prepare_of_compile (hp : Program.compile m.store.chunks.size source = .ok p) :
    ∃ console, m.prepare source = (.ok p.main.function, { m with console }.load p) := by
  set m₁ := m.record .trace ("Got input string: " ++ source) with hm₁
  set m₂ := ((m₁.recordRoutines p.nested).recordListing "<script>" p.main.code).record .debug
    "Compiled script, running" with hm₂
  have h₁ : m.Alike m₁ := rfl
  have h₂ : m₁.Alike m₂ :=
    ((alike_recordRoutines m₁ _).trans (alike_recordListing _ _ _)).trans rfl
  have hm : m₂ = { m with console := m₂.console } := h₁.trans h₂
  have hp : Program.compile m₁.store.chunks.size source = .ok p := hp
  refine ⟨m₂.console, ?_⟩
  rw [prepare, ← hm]
  dsimp only
  rw [hp]

/-- A text that is accepted is loaded and run. -/
theorem runSource_of_compile (budget : Nat) (hp : Program.compile m.store.chunks.size source = .ok p) :
    ∃ console, m.runSource budget source =
      (.ofOutcome (({ m with console }.load p).interpret budget p.main.function).1,
        (({ m with console }.load p).interpret budget p.main.function).2) := by
  obtain ⟨console, h⟩ := prepare_of_compile hp
  exact ⟨console, by rw [runSource, h]⟩

/-- What becomes of the text of a program on a new machine. -/
theorem Underway.runSource {console : Console} {e : Ending} {budget : Nat}
    (hp : Program.compile 0 source = .ok p)
    (hrun : (Machine.new console).runSource budget source = (e, m)) (he : ∀ f, e ≠ .failed f) :
    ∃ ℓ, Underway p ℓ m := by
  have hp' : Program.compile (Machine.new console).store.chunks.size source = .ok p := hp
  obtain ⟨console', h⟩ := runSource_of_compile budget hp'
  obtain ⟨rfl, rfl⟩ := Prod.mk.inj (h.symm.trans hrun)
  change ∀ f, Ending.ofOutcome (((Machine.new console').load p).interpret budget p.main.function).1 ≠
    .failed f at he
  change ∃ ℓ, Underway p ℓ (((Machine.new console').load p).interpret budget p.main.function).2
  rw [interpret] at he ⊢
  cases henter : enter p.main.function ((Machine.new console').load p) with
  | error fault m₁ =>
      rw [henter] at he
      exact absurd rfl (he _)
  | ok u m₁ =>
      rw [henter] at he
      refine (Underway.entered henter).run rfl fun f hf => he f ?_
      dsimp only
      rw [hf]
      rfl

/-- A run that has not ended with its first instruction goes on behind it. -/
theorem run_of_unfinished {budget : Nat} (h : (m.run (budget + 1)).1 = .unfinished) :
    ∃ m₁, m.Steps m₁ ∧ ∀ budget, m.run (budget + 1) = m₁.run budget := by
  rw [Machine.run] at h
  cases hstep : step m.traceStep with
  | error e m₁ =>
      rw [hstep] at h
      cases h
  | ok u m₁ =>
      rw [hstep] at h
      dsimp only at h
      split at h
      · cases h
      · rename_i hactive
        refine ⟨m₁, steps_traceStep hstep, fun budget => ?_⟩
        rw [Machine.run, hstep]
        exact if_neg hactive

/-- With one instruction more, a run comes one step further. -/
theorem steps_run {budget n : Nat} (h : (m.run budget).1 = .unfinished) (hn : n < budget) :
    (m.run n).2.Steps (m.run (n + 1)).2 := by
  induction budget generalizing m n with
  | zero => exact absurd hn (Nat.not_lt_zero n)
  | succ budget ih =>
      obtain ⟨m₁, hsteps, hrun⟩ := run_of_unfinished h
      rw [hrun] at h
      cases n with
      | zero =>
          rw [hrun]
          exact hsteps
      | succ n =>
          rw [hrun, hrun]
          exact ih h (Nat.lt_of_succ_lt_succ hn)

theorem Underway.run_of_le {budget n : Nat} (h : Underway p ℓ m)
    (hrun : (m.run budget).1 = .unfinished) (hn : n ≤ budget) : ∃ ℓ', Underway p ℓ' (m.run n).2 := by
  induction n with
  | zero => exact ⟨ℓ, h⟩
  | succ n ih =>
      obtain ⟨ℓ', h'⟩ := ih (Nat.le_of_succ_le hn)
      exact ⟨_, h'.next (steps_run hrun hn)⟩

/-- A text of which the run is not over has been compiled, and all the states on the way are underway. -/
theorem Underway.of_unfinished {console : Console} {budget : Nat}
    (h : ((Machine.new console).runSource budget source).1 = .unfinished) :
    ∃ p, Program.compile 0 source = .ok p ∧
      (∀ n ≤ budget, ∃ ℓ, Underway p ℓ ((Machine.new console).runSource n source).2) ∧
      ∀ n < budget, ((Machine.new console).runSource n source).2.Steps
        ((Machine.new console).runSource (n + 1) source).2 := by
  cases hp : Program.compile 0 source with
  | error r =>
      have hp' : Program.compile
          ((Machine.new console).record .trace ("Got input string: " ++ source)).store.chunks.size source =
            .error r := hp
      rw [Machine.runSource, prepare] at h
      dsimp only at h
      rw [hp'] at h
      cases h
  | ok p =>
      have hp' : Program.compile (Machine.new console).store.chunks.size source = .ok p := hp
      obtain ⟨console', hprepare⟩ := prepare_of_compile hp'
      have hsource (n : Nat) : (Machine.new console).runSource n source =
          (.ofOutcome (((Machine.new console').load p).interpret n p.main.function).1,
            (((Machine.new console').load p).interpret n p.main.function).2) := by
        rw [Machine.runSource, hprepare]
        rfl
      rw [hsource] at h
      cases henter : enter p.main.function ((Machine.new console').load p) with
      | error e m =>
          rw [interpret, henter] at h
          cases h
      | ok u m =>
          have hgoes (n : Nat) :
              ((Machine.new console').load p).interpret n p.main.function = m.run n := by
            rw [interpret, henter]
          have hstate (n : Nat) : ((Machine.new console).runSource n source).2 = (m.run n).2 := by
            rw [hsource, hgoes]
          have hrun : (m.run budget).1 = .unfinished := by
            rw [hgoes] at h
            cases hrun : (m.run budget).1 with
            | unfinished => rfl
            | finished | failed =>
                rw [hrun] at h
                cases h
          refine ⟨p, rfl, fun n hn => ?_, fun n hn => ?_⟩
          · rw [hstate]
            exact (Underway.entered henter).run_of_le hrun hn
          · rw [hstate, hstate]
            exact steps_run hrun hn

/-! ## Shapes on the way -/

theorem Live.host {rs : Array Routine} {n : Nat} (h : Live rs ℓ n m) (time : Number)
    (console : Console) : Live rs ℓ n { m with time, console } := by
  obtain ⟨w, f, fs, G, E, σ, Γ, hrs, hℓ, R, hsafe⟩ := h
  exact ⟨w, f, fs, G, E, σ, Γ, hrs, hℓ, { R with }, hsafe⟩

/-- A program underway is safe, or it is over. -/
theorem Underway.goes (hp : Program.compile 0 source = .ok p) (h : Underway p ℓ m) :
    (m.frames ≠ [] ∧ ∀ n, Live p.routines ℓ n m) ∨ m.frames = [] ∧ ∀ n, Idle p.routines ℓ n m := by
  induction h with
  | @entered console m henter =>
      obtain ⟨tree, -, -, hlegal, hlaid⟩ := Program.script_of_compile hp
      have hlive (n : Nat) : Live p.routines .start n m := by
        have := (idle_new n console).enter_script hlaid hlegal
        rwa [Fine, henter, Array.empty_append] at this
      exact .inl ⟨(hlive 0).frames_ne_nil, hlive⟩
  | @next ℓ m m' _ hstep ih =>
      have hlive := (ih.resolve_right fun h => hstep.frames_ne_nil h.1).2
      obtain ⟨time, console, hstep⟩ := hstep
      rcases step_cases fun n => (hlive n).host time console with ⟨e, m₁, hs⟩ | ⟨m₁, hs, h⟩
      · cases hs.symm.trans hstep
      · cases hs.symm.trans hstep
        exact h

theorem Underway.live (hp : Program.compile 0 source = .ok p) (h : Underway p ℓ m)
    (hactive : m.frames ≠ []) (n : Nat) : Live p.routines ℓ n m :=
  ((h.goes hp).resolve_right fun h => hactive h.1).2 n

/-- The instruction that comes next, with a shape that suits it. -/
theorem Live.view {rs : Array Routine} {n : Nat} (h : Live rs ℓ (n + 1) m) :
    ∃ w f fs G E σ Γ ins q, w.routines = rs ∧ w.lineage = ℓ ∧ Running w (n + 1) m f fs G E σ Γ ∧
      (m.store.chunk f.closure.function).instr? f.ip = some (ins, q) ∧
      Grounded G.kind (σ.slots.drop ins.pops) ∧ Flow rs (Safe rs n) G E q ins σ := by
  obtain ⟨w, f, fs, G, E, σ, Γ, rfl, rfl, R, τ, ins, q, hle, hi, hground, hflow⟩ := h
  refine ⟨w, f, fs, G, E, τ, Γ, ins, q, rfl, rfl, R.weaken hle, ?_, hground, hflow⟩
  rw [Store.chunk, R.steady.chunks, Array.getD_eq_getD_getElem?, Array.getElem?_map, R.has.routine]
  exact hi

end Run

/-! ## A run in which one class inherits from another -/

def inheritingSource : String :=
  "{ class A { f() {} } class B < A { init() { super.f(); } } }"

/-- Both classes have been declared and are on the stack. -/
theorem underway_inheriting : ∃ p ℓ, Program.compile 0 inheritingSource = .ok p ∧
    Underway p ℓ ((Machine.new {}).runSource 14 inheritingSource).2 := by
  have hrun : ((Machine.new {}).runSource 14 inheritingSource).1 = .unfinished := by decide +kernel
  obtain ⟨p, hp, hunderway, -⟩ := Underway.of_unfinished hrun
  obtain ⟨ℓ, h⟩ := hunderway 14 (Nat.le_refl _)
  exact ⟨p, ℓ, hp, h⟩

end LoxMachine
