import LoxMachine.Proofs.Twin.Steps
import LoxMachine.Proofs.Typing.Isolation

/-!
# Twins that run

What one machine does within its budget, its twin does within some other budget: it takes jumps of its
own, and fails with the same error if the first one does. The two go on until their scripts part.

Main statement: `Twins.run`.
-/

namespace LoxMachine

open Machine

/-! ## Machines amid a run -/

/-- A machine that runs compiled code. -/
abbrev Machine.Alive (m : Machine) : Prop :=
  Stage.running.Sound m

/-- They differ in the log at most. -/
def Machine.Hushed (m m' : Machine) : Prop :=
  ∃ c, m' = { m with console := c } ∧ c.output = m.console.output ∧ c.broken = m.console.broken

section Hushed

variable {m m' m'' : Machine}

theorem Machine.Hushed.refl (m : Machine) : m.Hushed m :=
  ⟨m.console, rfl, rfl, rfl⟩

theorem Machine.Hushed.trans (h : m.Hushed m') (h' : m'.Hushed m'') : m.Hushed m'' := by
  obtain ⟨c, rfl, houtput, hbroken⟩ := h
  obtain ⟨c', rfl, houtput', hbroken'⟩ := h'
  exact ⟨c', rfl, houtput'.trans houtput, hbroken'.trans hbroken⟩

theorem Machine.Hushed.output_eq (h : m.Hushed m') : m'.console.output = m.console.output := by
  obtain ⟨c, rfl, houtput, -⟩ := h
  exact houtput

theorem Machine.Hushed.goto (h : m.Hushed m') (p : Nat) : (m.goto p).Hushed (m'.goto p) := by
  obtain ⟨c, rfl, houtput, hbroken⟩ := h
  exact ⟨c, rfl, houtput, hbroken⟩

theorem Machine.Hushed.alive (h : m.Hushed m') (hm : m.Alive) : m'.Alive := by
  obtain ⟨c, rfl, -, -⟩ := h
  obtain ⟨rs, ℓ, hm⟩ := hm
  exact ⟨rs, ℓ, fun n => (hm n).host m.time c⟩

theorem Machine.hushed_record (m : Machine) (level : LogLevel) (text : String) :
    m.Hushed (m.record level text) := by
  refine ⟨m.console.record level text, rfl, ?_⟩
  rw [Console.record]
  split <;> exact ⟨rfl, rfl⟩

theorem Machine.hushed_traceStep (m : Machine) : m.Hushed m.traceStep := by
  rw [traceStep]
  split
  · exact .refl m
  · split
    · exact (m.hushed_record _ _).trans (hushed_record _ _ _)
    · exact .refl m

end Hushed

section Alive

variable {f : Frame} {fs : List Frame} {ins : Instr} {q : Nat} {m m' : Machine}

theorem Live.ready {rs : Array Routine} {ℓ : Lineage} (h : Live rs ℓ 1 m) (hframes : m.frames = f :: fs)
    (hi : (m.store.chunk f.closure.function).instr? f.ip = some (ins, q)) : m.Ready ins := by
  obtain ⟨w, f₁, fs₁, G, E, σ, Γ, ins₁, q₁, -, -, R, hi₁, hground, hflow⟩ := h.view
  obtain ⟨rfl, rfl⟩ := List.cons.inj (hframes.symm.trans R.frames)
  obtain ⟨rfl, rfl⟩ := Prod.mk.inj (Option.some.inj (hi.symm.trans hi₁))
  have hlt := R.lt_values hground
  refine ⟨⟨R.steady.opened, R.steady.descending⟩, by omega, ?_⟩
  rintro rfl ⟨slot, c⟩ hmem
  obtain ⟨k, -, hslot⟩ := R.steady.shared slot c hmem
  have hbelow {k' : Kind} {s : List Slot} (hslot : atSlot? (.temp k' :: s) slot = some ⟨k, true⟩) :
      slot < s.length := by
    have hlt := lt_of_atSlot? hslot
    rw [List.length_cons] at hlt
    refine Nat.lt_of_le_of_ne (Nat.le_of_lt_succ hlt) ?_
    rintro rfl
    rw [atSlot?_cons, if_pos rfl] at hslot
    cases hslot
  have hlength := R.values.length_eq
  cases hflow with
  | pop | endClass =>
      have hlt := hbelow hslot
      rw [hlength, List.cons_append, List.length_cons]
      exact hlt

/-- A step of a machine amid a run breaks no rule, and unless it was the last one, the run goes on. -/
theorem Machine.Alive.step (h : m.Alive) :
    (∃ e m', Machine.step m.traceStep = .error (.runtime e) m') ∨
      ∃ m', Machine.step m.traceStep = .ok () m' ∧ (m'.frames ≠ [] → m'.Alive) := by
  obtain ⟨rs, ℓ, h⟩ := h
  rcases step_cases fun n => (h n).traceStep with hstep | ⟨m', hstep, ⟨-, h'⟩ | ⟨hnil, -⟩⟩
  · exact .inl hstep
  · exact .inr ⟨m', hstep, fun _ => ⟨rs, _, h'⟩⟩
  · exact .inr ⟨m', hstep, fun hne => absurd hnil hne⟩

end Alive

/-! ## Parts of a run -/

/-- `k` instructions, behind each of which the run goes on. -/
inductive Machine.Continues : Nat → Machine → Machine → Prop where
  | refl (m) : Continues 0 m m
  | step {k m m' m''} : Machine.step m.traceStep = .ok () m' → m'.frames ≠ [] → Continues k m' m'' →
      Continues (k + 1) m m''

section Continues

variable {j k : Nat} {m m' m'' : Machine}

theorem Machine.Continues.of_step (hstep : Machine.step m.traceStep = .ok () m') (hne : m'.frames ≠ []) :
    m.Continues 1 m' :=
  .step hstep hne (.refl m')

theorem Machine.Continues.trans (h : m.Continues j m') (h' : m'.Continues k m'') : m.Continues (j + k) m'' := by
  induction h with
  | refl => rwa [Nat.zero_add]
  | step hstep hne _ ih =>
      rw [Nat.add_right_comm]
      exact .step hstep hne (ih h')

theorem Machine.Continues.run (h : m.Continues k m') (budget : Nat) : m.run (k + budget) = m'.run budget := by
  induction h with
  | refl => rw [Nat.zero_add]
  | step hstep hne _ ih =>
      rw [Nat.add_right_comm, Machine.run, hstep, ← ih]
      exact if_neg (by simpa using hne)

theorem Machine.Continues.alive (h : m.Continues k m') (hm : m.Alive) : m'.Alive := by
  induction h with
  | refl => exact hm
  | step hstep hne _ ih =>
      rcases hm.step with ⟨e, m₁, h⟩ | ⟨m₁, h, halive⟩
      · cases h.symm.trans hstep
      · cases h.symm.trans hstep
        exact ih (halive hne)

/-- A jump only moves the running call. -/
theorem Machine.step_goes {f : Frame} {fs : List Frame} {ins : Instr} {q t : Nat}
    (hframes : m.frames = f :: fs)
    (hi : (m.store.chunk f.closure.function).instr? f.ip = some (ins, q)) (hgo : ins.Goes t) :
    Machine.step m = .ok () (m.goto t) := by
  rw [step_eq_exec hframes hi]
  rcases hgo with rfl | rfl <;> exact moveTo_goto hframes _ _

/-- A chain of jumps only moves the running call. -/
theorem Chunk.Skips.passes {f : Frame} {fs : List Frame} {r : Nat} (hframes : m.frames = f :: fs)
    (h : (m.store.chunk f.closure.function).Skips f.ip r) :
    ∃ k m', m.Continues k m' ∧ (m.goto r).Hushed m' := by
  induction h with
  | refl => exact ⟨0, m, .refl m, by rw [goto_ip hframes]; exact .refl m⟩
  | @step r t q ins _ hi hgo ih =>
      obtain ⟨k, m', hpasses, hhushed⟩ := ih
      obtain ⟨c, hm', -, -⟩ := hhushed.trans m'.hushed_traceStep
      have hframes' : m'.traceStep.frames = { f with ip := r } :: fs := by
        rw [hm']
        exact frames_goto m r hframes
      have hi' : (m'.traceStep.store.chunk f.closure.function).instr? r = some (ins, q) := by
        rw [hm']
        exact hi
      have hstep := step_goes hframes' hi' hgo
      refine ⟨k + 1, _, hpasses.trans (.of_step hstep ?_), ?_⟩
      · rw [frames_goto _ _ hframes']
        exact List.cons_ne_nil _ _
      · have := (hhushed.trans m'.hushed_traceStep).goto t
        rwa [goto_goto] at this

end Continues

/-! ## Ends -/

/-- Runs end alike: their traces may differ. -/
inductive Outcome.Like : Outcome → Outcome → Prop where
  | finished : Like .finished .finished
  | failed {f g} : f.fault = g.fault → Like (.failed f) (.failed g)
  | unfinished : Like .unfinished .unfinished

/-- Runs that print the same and end alike. -/
structure SameEnd (x y : Outcome × Machine) : Prop where
  like : x.1.Like y.1
  output : x.2.console.output = y.2.console.output

theorem Machine.output_abort (m : Machine) (fault : Fault) :
    (m.abort fault).2.console.output = m.console.output :=
  (m.hushed_record .debug ("Runtime error: " ++ fault.message)).output_eq

/-- The scripts of both have come to where they part. -/
def Meets (S : Scene) (n : Nat) (m m' : Machine) : Prop :=
  ∃ B f f', Amid S n B S.scripts f [] f' [] m m' ∧ S.scripts.exit f.ip f'.ip

section Twins

variable {S : Scene} {n : Nat} {B : Bond} {P : Pairing} {f f' : Frame} {fs fs' : List Frame}
  {m m' m₁ m₁' : Machine}

theorem Heaps.hushed (h : Heaps S n B m m') (hm : m.Hushed m₁) (hm' : m'.Hushed m₁') :
    Heaps S n B m₁ m₁' := by
  obtain ⟨c, rfl, houtput, hbroken⟩ := hm
  obtain ⟨c', rfl, houtput', hbroken'⟩ := hm'
  refine { h with output := ?_, broken := ?_ }
  · exact houtput.trans (h.output.trans houtput'.symm)
  · exact hbroken.trans (h.broken.trans hbroken'.symm)

theorem Amid.hushed (A : Amid S n B P f fs f' fs' m m') (h : m.Hushed m₁) (h' : m'.Hushed m₁') :
    Amid S n B P f fs f' fs' m₁ m₁' := by
  have hheaps := A.heaps.hushed h h'
  obtain ⟨c, rfl, -, -⟩ := h
  obtain ⟨c', rfl, -, -⟩ := h'
  exact { A with heaps := hheaps }

theorem Amid.of_le {j : Nat} (A : Amid S n B P f fs f' fs' m m') (hj : j ≤ n) :
    Amid S j B P f fs f' fs' m m' := by
  induction hj with
  | refl => exact A
  | step _ ih => exact ih A.succ

theorem Twins.succ (h : Twins S (n + 1) m m') : Twins S n m m' := by
  obtain ⟨B, P, f, fs, f', fs', A, hresembles⟩ := h
  exact A.succ.twins hresembles.succ

theorem Twins.frames_ne_nil (h : Twins S n m m') : m.frames ≠ [] ∧ m'.frames ≠ [] := by
  obtain ⟨B, P, f, fs, f', fs', A, -⟩ := h
  rw [A.frames, A.frames']
  exact ⟨List.cons_ne_nil _ _, List.cons_ne_nil _ _⟩

theorem Twins.output_eq (h : Twins S n m m') : m.console.output = m'.console.output := by
  obtain ⟨B, P, f, fs, f', fs', A, -⟩ := h
  exact A.heaps.output

/-- The code that the running calls are in. -/
theorem Amid.chunks (A : Amid S n B P f fs f' fs' m m') :
    m.store.chunk f.closure.function = P.left ∧ m'.store.chunk f'.closure.function = P.right := by
  have hseat := A.lineup.seat
  rw [Store.chunk, Store.chunk, A.heaps.left, A.heaps.right, Array.getD_eq_getD_getElem?,
    Array.getD_eq_getD_getElem?, hseat.left, hseat.right]
  exact ⟨rfl, rfl⟩

theorem Chunk.Skips.cases_head {c : Chunk} {p r : Nat} (h : c.Skips p r) :
    p = r ∨ ∃ ins q t, c.instr? p = some (ins, q) ∧ ins.Goes t ∧ c.Skips t r := by
  induction h with
  | refl => exact .inl rfl
  | step _ hi hgo ih =>
      rcases ih with rfl | ⟨ins, q, t, hi₁, hgo₁, hskips⟩
      · exact .inr ⟨_, _, _, hi, hgo, .refl⟩
      · exact .inr ⟨ins, q, t, hi₁, hgo₁, .step hskips hi hgo⟩

/-- The left twin takes a jump of its own, or the right one takes some and then they are where their
scripts part or execute instructions that match. -/
theorem Twins.step (h : Twins S (n + 1) m m') (hm : m.Alive) (hm' : m'.Alive) :
    (∃ m₁, Machine.step m.traceStep = .ok () m₁ ∧ Twins S (n + 1) m₁ m') ∨
      ∃ k m₁', m'.Continues k m₁' ∧ (Meets S (n + 1) m m₁' ∨
        Same S n Machine.step m.traceStep Machine.step m₁'.traceStep) := by
  obtain ⟨B, P, f, fs, f', fs', A, r, r', hskip, hskip', hnext⟩ := h
  obtain ⟨hleft, hright⟩ := A.chunks
  rcases hskip.cases_head with rfl | ⟨ins, q, t, hi, hgo, hskip⟩
  · rw [← hright] at hskip'
    obtain ⟨k, m₁', hpasses, hhushed⟩ := hskip'.passes A.frames'
    have A₁ : Amid S (n + 1) B P f fs { f' with ip := r' } fs' m m₁' := by
      have := (A.goto f.ip r').hushed (.refl _) hhushed
      rwa [goto_ip A.frames] at this
    refine .inr ⟨k, m₁', hpasses, ?_⟩
    rcases hnext with ⟨hscript, hexit⟩ | ⟨ins, ins', q, q', hi, hi', hmatch⟩
    · left
      generalize hf' : ({ f' with ip := r' } : Frame) = g at A₁
      obtain rfl : g.ip = r' := hf' ▸ rfl
      cases A₁.lineup with
      | script => exact ⟨B, _, _, A₁, hexit⟩
      | call hnone => exact absurd hscript hnone
    · right
      have A₂ := A₁.succ.hushed m.hushed_traceStep m₁'.hushed_traceStep
      obtain ⟨hleft₂, hright₂⟩ := A₂.chunks
      obtain ⟨rs, ℓ, hlive⟩ := m.hushed_traceStep.alive hm
      obtain ⟨rs', ℓ', hlive'⟩ := m₁'.hushed_traceStep.alive (hpasses.alive hm')
      have hi₂ := hleft₂ ▸ hi
      have hi₂' := hright₂ ▸ hi'
      have hready := (hlive 1).ready A₂.frames hi₂
      have hready' := (hlive' 1).ready A₂.frames' hi₂'
      have hsame := (A₂.goto (f.ip + 1) (r' + 1)).exec hi hi' { hready with tidy := { hready.tidy with } }
        { hready' with tidy := { hready'.tidy with } } hmatch
      rw [Same, Jointly] at hsame ⊢
      rwa [step_eq_exec A₂.frames hi₂, step_eq_exec A₂.frames' hi₂']
  · left
    have A₁ := A.hushed m.hushed_traceStep (.refl m')
    refine ⟨m.traceStep.goto t, step_goes A₁.frames (A₁.chunks.1 ▸ hi) hgo, ?_⟩
    have A₂ := A₁.goto t f'.ip
    rw [goto_ip A.frames'] at A₂
    exact A₂.twins ⟨r, r', hskip, hskip', hnext⟩

/-- Whatever the left twin does within a budget, the right one does within another one, unless they
come to where their scripts part. -/
theorem Twins.run {budget j : Nat} (h : Twins S (budget + j) m m') (hm : m.Alive) (hm' : m'.Alive) :
    (∃ budget', SameEnd (m.run budget) (m'.run budget') ∧ (m.run budget).1 ≠ .finished) ∨
      ∃ k rest k' m₁ m₁', budget = k + rest ∧ m.Continues k m₁ ∧ m'.Continues k' m₁' ∧ Meets S j m₁ m₁' := by
  induction budget generalizing m m' with
  | zero => exact .inl ⟨0, ⟨.unfinished, h.output_eq⟩, by simp [Machine.run]⟩
  | succ budget ih =>
      rw [Nat.succ_add] at h
      -- After instructions of both, the rest of the run is as the induction says.
      have hgo {k₀' : Nat} {m₁ m₁' : Machine} (hstep : Machine.step m.traceStep = .ok () m₁)
          (hpasses : m'.Continues k₀' m₁') (h : Twins S (budget + j) m₁ m₁') :
          (∃ budget', SameEnd (m.run (budget + 1)) (m'.run budget') ∧
              (m.run (budget + 1)).1 ≠ .finished) ∨
            ∃ k rest k' m₁ m₁', budget + 1 = k + rest ∧ m.Continues k m₁ ∧ m'.Continues k' m₁' ∧
              Meets S j m₁ m₁' := by
        have hfirst := Continues.of_step hstep h.frames_ne_nil.1
        have hrun := hfirst.run budget
        rw [Nat.add_comm] at hrun
        rcases ih h (hfirst.alive hm) (hpasses.alive hm') with
          ⟨budget', hsame, hne⟩ | ⟨k, rest, k', m₂, m₂', rfl, hpasses₂, hpasses₂', hmeets⟩
        · rw [hrun]
          exact .inl ⟨k₀' + budget', by rwa [hpasses.run], hne⟩
        · exact .inr ⟨1 + k, rest, k₀' + k', m₂, m₂', by omega, hfirst.trans hpasses₂,
            hpasses.trans hpasses₂', hmeets⟩
      rcases h.step hm hm' with ⟨m₁, hstep, hjump⟩ | ⟨k, m₁', hpasses, ⟨B, f, f', A, hexit⟩ | hsame⟩
      · exact hgo hstep (.refl m') hjump.succ
      · exact .inr ⟨0, budget + 1, k, m, m₁', by omega, .refl m, hpasses, B, f, f',
          A.of_le (by omega), hexit⟩
      · rw [Same, Jointly] at hsame
        rcases hm.step with ⟨e, m₂, hstep⟩ | ⟨m₂, hstep, -⟩ <;>
          rcases (hpasses.alive hm').step with ⟨e', m₂', hstep'⟩ | ⟨m₂', hstep', -⟩ <;>
          rw [hstep, hstep'] at hsame
        · obtain ⟨rfl, houtput⟩ := hsame
          refine .inl ⟨k + 1, ?_, ?_⟩
          · rw [hpasses.run, Machine.run, Machine.run, hstep, hstep']
            exact ⟨.failed rfl, (m₂.output_abort _).trans (houtput.trans (m₂'.output_abort _).symm)⟩
          · simp [Machine.run, hstep, Machine.abort]
        · exact hsame.elim
        · exact hsame.elim
        · exact hgo hstep (hpasses.trans (.of_step hstep' hsame.frames_ne_nil.2)) hsame

end Twins

end LoxMachine
