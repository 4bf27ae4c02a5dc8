import LoxMachine.Machine.Run

/-!
# Actions, applied

What each small action answers on a given machine. `goto` sets the instruction pointer of the
running frame; operands are read by moving it byte by byte.
-/

namespace LoxMachine.Machine

section Monad

variable {α β : Type} (m : Machine)

@[simp] theorem pure_apply (a : α) : (pure a : Action α) m = .ok a m := rfl

@[simp] theorem bind_apply (x : Action α) (f : α → Action β) :
    (x >>= f) m =
      match x m with
      | .ok a m' => f a m'
      | .error e m' => .error e m' := by
  change EStateM.bind x f m = _
  unfold EStateM.bind
  cases x m <;> rfl

theorem bind_of_ok {m m' : Machine} {x : Action α} {f : α → Action β} {a : α} (h : x m = .ok a m') :
    (x >>= f) m = f a m' := by
  rw [bind_apply, h]

theorem bind_congr_apply {m m' : Machine} {x y : Action α} {f : α → Action β} (h : x m = y m') :
    (x >>= f) m = (y >>= f) m' := by
  rw [bind_apply, bind_apply, h]

@[simp] theorem map_apply (f : α → β) (x : Action α) :
    (f <$> x) m =
      match x m with
      | .ok a m' => .ok (f a) m'
      | .error e m' => .error e m' := by
  change EStateM.map f x m = _
  unfold EStateM.map
  cases x m <;> rfl

@[simp] theorem get_apply : (get : Action Machine) m = .ok m m := rfl

@[simp] theorem set_apply (m' : Machine) : (set m' : Action PUnit) m = .ok ⟨⟩ m' := rfl

@[simp] theorem modify_apply (f : Machine → Machine) :
    (modify f : Action PUnit) m = .ok ⟨⟩ (f m) := rfl

@[simp] theorem modifyGet_apply (f : Machine → α × Machine) :
    (modifyGet f : Action α) m = .ok (f m).1 (f m).2 := rfl

@[simp] theorem fail_apply (e : RuntimeError) : (fail e : Action α) m = .error (.runtime e) m := rfl

@[simp] theorem violate_apply (v : Violation) :
    (violate v : Action α) m = .error (.violation v) m := rfl

@[simp] theorem ite_apply {c : Prop} [Decidable c] (x y : Action α) :
    (if c then x else y) m = if c then x m else y m := by
  split <;> rfl

end Monad

/-- The value that lies `distance` below the top of the stack. -/
def fromTop? (m : Machine) (distance : Nat) : Option Value :=
  if distance < m.stack.size then m.stack[m.stack.size - 1 - distance]? else none

@[simp] theorem orViolate_apply {α : Type} (m : Machine) (x : Option α) (v : Violation) :
    orViolate x v m =
      match x with
      | some a => .ok a m
      | none => .error (.violation v) m := by
  cases x <;> rfl

theorem peek_apply (m : Machine) (d : Nat) :
    peek d m =
      match m.fromTop? d with
      | some v => .ok v m
      | none => .error (.violation .stackUnderflow) m := by
  simp only [peek, bind_apply, get_apply, ite_apply, orViolate_apply, violate_apply, fromTop?]
  split
  · cases m.stack[m.stack.size - 1 - d]? <;> rfl
  · rfl

theorem peek_bind_congr {α : Type} {m : Machine} {d : Nat} {f g : Value → Action α}
    (h : ∀ v, f v m = g v m) : (peek d >>= f) m = (peek d >>= g) m := by
  rw [bind_apply, bind_apply, peek_apply]
  cases m.fromTop? d with
  | none => rfl
  | some v => exact h v

/-! ## Moving through the code -/

/-- The machine with the instruction pointer of the running frame at `ip`. -/
def goto (m : Machine) (ip : Nat) : Machine :=
  { m with frames := m.frames.modifyHead ({ · with ip }) }

section Goto

variable (m : Machine) (p q : Nat)

@[simp] theorem goto_goto : (m.goto p).goto q = m.goto q := by
  simp only [goto, List.modifyHead_modifyHead]
  rfl

@[simp] theorem store_goto : (m.goto p).store = m.store := rfl

@[simp] theorem stack_goto : (m.goto p).stack = m.stack := rfl

@[simp] theorem globals_goto : (m.goto p).globals = m.globals := rfl

@[simp] theorem openCells_goto : (m.goto p).openCells = m.openCells := rfl

@[simp] theorem console_goto : (m.goto p).console = m.console := rfl

@[simp] theorem time_goto : (m.goto p).time = m.time := rfl

theorem frames_goto {f : Frame} {fs : List Frame} (h : m.frames = f :: fs) :
    (m.goto p).frames = { f with ip := p } :: fs := by
  rw [goto, h]
  rfl

end Goto

section Reading

variable {m : Machine} {f : Frame} {fs : List Frame} (h : m.frames = f :: fs)
include h

/-- The running frame is where its instruction pointer says. -/
theorem goto_ip : m.goto f.ip = m := by
  simp only [goto, h, List.modifyHead_cons]
  rw [← h]

theorem frame_apply : frame m = .ok f m := by
  simp [frame, orViolate, h]

theorem moveTo_apply (p : Nat) : moveTo p m = .ok () (m.goto p) := by
  simp only [moveTo, bind_apply, get_apply, h, modify_apply, goto, List.modifyHead_cons]

theorem moveTo_goto (p q : Nat) : moveTo q (m.goto p) = .ok () (m.goto q) := by
  simp only [moveTo, bind_apply, get_apply, frames_goto m p h, modify_apply]
  simp only [goto, h, List.modifyHead_cons]

theorem frame_goto (p : Nat) : frame (m.goto p) = .ok { f with ip := p } (m.goto p) := by
  simp [frame, orViolate, frames_goto m p h]

theorem readByte_goto {p : Nat} {b : UInt8}
    (hb : (m.store.chunk f.closure.function).byte? p = some b) :
    readByte (m.goto p) = .ok b (m.goto (p + 1)) := by
  simp only [readByte, bind_apply, get_apply, frames_goto m p h, store_goto, hb, set_apply,
    pure_apply]
  simp only [goto, h, List.modifyHead_cons]

theorem readDistance_goto {p d : Nat}
    (hd : (m.store.chunk f.closure.function).pair? p = some d) :
    readDistance (m.goto p) = .ok d (m.goto (p + 2)) := by
  simp only [Chunk.pair?, Option.bind_eq_bind, Option.bind_eq_some_iff, Option.pure_def,
    Option.some.injEq] at hd
  obtain ⟨high, hh, low, hl, rfl⟩ := hd
  simp [readDistance, readByte_goto h hh, readByte_goto h hl]

end Reading

/-! ## Capturing -/

/-- The cell of the variable in `slot`, and the machine that has it. -/
def captured (m : Machine) (slot : Nat) : Nat × Machine :=
  match m.openCells.lookup slot with
  | some cell => (cell, m)
  | none =>
    (m.store.cells.size,
      { m with
        store := { m.store with cells := m.store.cells.push (.inSlot slot) }
        openCells := insertCell slot m.store.cells.size m.openCells })

theorem capture_apply (m : Machine) (slot : Nat) :
    capture slot m = .ok (m.captured slot).1 (m.captured slot).2 := by
  simp only [capture, captured, bind_apply, get_apply]
  cases m.openCells.lookup slot <;> rfl

theorem captured_goto (m : Machine) (slot p : Nat) :
    (m.goto p).captured slot = ((m.captured slot).1, (m.captured slot).2.goto p) := by
  simp only [captured, openCells_goto]
  cases m.openCells.lookup slot <;> rfl

theorem frames_captured (m : Machine) (slot : Nat) : (m.captured slot).2.frames = m.frames := by
  rw [captured]
  cases m.openCells.lookup slot <;> rfl

theorem chunks_captured (m : Machine) (slot : Nat) :
    (m.captured slot).2.store.chunks = m.store.chunks := by
  rw [captured]
  cases m.openCells.lookup slot <;> rfl

/-! ## Runs -/

/-- What holds where a run begins, and is kept by every step but the last, holds up to where the run ends. -/
theorem run_of_invariant {P : Machine → Prop} {Q : Outcome → Machine → Prop}
    (hstep : ∀ {m m'}, P m → step m.traceStep = .ok () m' → m'.frames ≠ [] → P m')
    (hunfinished : ∀ {m}, P m → Q .unfinished m)
    (hfinished : ∀ {m m'}, P m → step m.traceStep = .ok () m' → m'.frames = [] → Q .finished m')
    (hfailed : ∀ {m m' e}, P m → step m.traceStep = .error e m' → Q (m'.abort e).1 (m'.abort e).2)
    {m : Machine} (h : P m) (budget : Nat) : Q (m.run budget).1 (m.run budget).2 := by
  induction budget generalizing m with
  | zero => exact hunfinished h
  | succ budget ih =>
      rw [run]
      cases hm : step m.traceStep with
      | error e m' => exact hfailed h hm
      | ok u m' =>
          dsimp only
          split
          · rename_i hlast
            exact hfinished h hm (List.isEmpty_iff.mp hlast)
          · rename_i hactive
            exact ih (hstep h hm (by simpa using hactive))

/-- A run that fails has come to the instruction that fails. -/
theorem fails_of_run {P : Machine → Prop}
    (hstep : ∀ {m m'}, P m → step m.traceStep = .ok () m' → m'.frames ≠ [] → P m') {m m' : Machine}
    {budget : Nat} {failure : Failure} (h : P m) (hrun : m.run budget = (.failed failure, m')) :
    ∃ before after, P before ∧ step before.traceStep = .error failure.fault after ∧
      after.abort failure.fault = (.failed failure, m') := by
  have hends : (m.run budget).1 = .failed failure → ∃ before after, P before ∧
      step before.traceStep = .error failure.fault after ∧ after.abort failure.fault = m.run budget := by
    refine run_of_invariant (Q := fun o m' => o = .failed failure → ∃ before after, P before ∧
      step before.traceStep = .error failure.fault after ∧ after.abort failure.fault = (o, m'))
      hstep ?_ ?_ ?_ h budget
    · intro m _ heq
      cases heq
    · intro m m' _ _ _ heq
      cases heq
    · intro m m' e h hm heq
      obtain rfl := Outcome.failed.inj heq
      exact ⟨m, m', h, hm, rfl⟩
  rw [hrun] at hends
  exact hends rfl

end LoxMachine.Machine
