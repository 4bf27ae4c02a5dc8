import LoxMachine.Proofs.Machine.Action
import LoxMachine.Proofs.Typing.Slots

/-!
# The stack as a list

The stack listed from its top down (`values`), and what the actions on the stack do to that list.
-/

namespace LoxMachine.Machine

/-- The values on the stack, the top first. -/
def values (m : Machine) : List Value :=
  m.stack.toList.reverse

def setValues (m : Machine) (vs : List Value) : Machine :=
  { m with stack := vs.reverse.toArray }

section Values

variable (m : Machine) (vs ws : List Value)

@[simp] theorem values_setValues : (m.setValues vs).values = vs := by
  simp [values, setValues]

@[simp] theorem setValues_setValues : (m.setValues vs).setValues ws = m.setValues ws := rfl

@[simp] theorem setValues_values : m.setValues m.values = m := by
  simp [values, setValues]

@[simp] theorem values_goto (p : Nat) : (m.goto p).values = m.values := rfl

@[simp] theorem store_setValues : (m.setValues vs).store = m.store := rfl

@[simp] theorem globals_setValues : (m.setValues vs).globals = m.globals := rfl

@[simp] theorem frames_setValues : (m.setValues vs).frames = m.frames := rfl

@[simp] theorem openCells_setValues : (m.setValues vs).openCells = m.openCells := rfl

@[simp] theorem console_setValues : (m.setValues vs).console = m.console := rfl

@[simp] theorem time_setValues : (m.setValues vs).time = m.time := rfl

theorem size_stack : m.stack.size = m.values.length := by
  simp [values]

theorem back?_stack : m.stack.back? = m.values.head? := by
  rw [values, List.head?_reverse, Array.getLast?_toList]

theorem getElem?_stack (slot : Nat) : m.stack[slot]? = atSlot? m.values slot := by
  simp [values, atSlot?]

end Values

/-! ## Actions -/

variable (m : Machine)

theorem push_apply (v : Value) :
    push v m =
      if m.values.length < maxStack then .ok () (m.setValues (v :: m.values))
      else .error (.runtime .stackOverflow) m := by
  simp only [push, bind_apply, get_apply, ite_apply, modify_apply, fail_apply, size_stack]
  split
  · have : m.stack.push v = (v :: m.values).reverse.toArray := by
      apply Array.toList_inj.mp
      simp [values]
    rw [this]
    rfl
  · rfl

theorem pop_nil (h : m.values = []) : pop m = .error (.violation .stackUnderflow) m := by
  have : m.stack = #[] := by simpa [values] using h
  simp [pop, this]

variable {m}

theorem pop_cons {v : Value} {vs : List Value} (h : m.values = v :: vs) :
    pop m = .ok v (m.setValues vs) := by
  have hstack : m.stack = vs.reverse.toArray.push v := by
    have := congrArg List.reverse h
    rw [values, List.reverse_reverse, List.reverse_cons] at this
    apply Array.toList_inj.mp
    simpa using this
  simp only [pop, bind_apply, get_apply, hstack, Array.back?_push, modify_apply, Array.pop_push]
  rfl

theorem popClass_cons {c : Class} {vs : List Value} (h : m.values = .cls c :: vs) :
    popClass m = .ok c (m.setValues vs) := by
  rw [popClass, bind_apply, pop_cons h]
  rfl

theorem peek_values (d : Nat) :
    peek d m =
      match m.values[d]? with
      | some v => .ok v m
      | none => .error (.violation .stackUnderflow) m := by
  have : m.fromTop? d = m.values[d]? := by
    rw [fromTop?]
    split
    · rename_i h
      rw [getElem?_stack, atSlot?, List.getElem?_reverse (by rw [size_stack] at *; omega)]
      congr 1
      rw [size_stack] at *
      omega
    · rename_i h
      rw [size_stack] at h
      exact (List.getElem?_eq_none (Nat.le_of_not_lt h)).symm
  rw [peek_apply]
  cases h : m.values[d]? <;> simp only [this, h]

theorem readSlot_apply (slot : Nat) :
    readSlot slot m =
      match atSlot? m.values slot with
      | some v => .ok v m
      | none => .error (.violation .stackUnderflow) m := by
  simp only [readSlot, bind_apply, get_apply, orViolate_apply, getElem?_stack]
  cases atSlot? m.values slot <;> rfl

theorem writeSlot_apply (slot : Nat) (v : Value) :
    writeSlot slot v m =
      if slot < m.values.length then .ok () (m.setValues (setSlot m.values slot v))
      else .error (.violation .stackUnderflow) m := by
  simp only [writeSlot, bind_apply, get_apply, ite_apply, modify_apply, violate_apply, size_stack]
  split
  · have : m.stack.setIfInBounds slot v = (setSlot m.values slot v).reverse.toArray := by
      apply Array.toList_inj.mp
      simp [values, setSlot]
    rw [this]
    rfl
  · rfl

theorem slotBelow_apply (d : Nat) :
    slotBelow d m =
      if d < m.values.length then .ok (m.values.length - 1 - d) m
      else .error (.violation .stackUnderflow) m := by
  simp only [slotBelow, bind_apply, get_apply, ite_apply, violate_apply, size_stack, pure_apply]

theorem truncate_apply (slot : Nat) :
    truncate slot m = .ok () (m.setValues (m.values.drop (m.values.length - slot))) := by
  simp only [truncate, modify_apply, setValues, values]
  congr 2
  apply Array.toList_inj.mp
  simp only [Array.toList_shrink, List.drop_reverse, List.reverse_reverse, List.length_reverse,
    Array.length_toList]
  rw [List.take_eq_take_iff, Array.length_toList]
  omega

/-! ## Calls -/

/-- The values from a slot on, the lowest first. -/
theorem toList_extract_stack (m : Machine) (slot : Nat) :
    (m.stack.extract slot).toList = (m.values.take (m.values.length - slot)).reverse := by
  have hsize : m.stack.toList.length = m.stack.size := Array.length_toList
  rw [Array.toList_extract, values, List.take_reverse, List.reverse_reverse,
    List.extract_eq_take_drop, List.length_reverse]
  by_cases h : slot ≤ m.stack.size
  · rw [hsize, Nat.sub_sub_self h]
    exact List.take_of_length_le (Nat.le_of_eq (by rw [List.length_drop, hsize]))
  · rw [List.drop_eq_nil_of_le (by omega), List.take_nil, hsize,
      show m.stack.size - (m.stack.size - slot) = m.stack.size by omega,
      List.drop_eq_nil_of_le (by omega)]

theorem call_apply (c : Closure) (count : Nat) (h : count < m.values.length) :
    call c count m =
      if count ≠ c.function.arity then
        .error (.runtime (.arityMismatch c.function.arity count)) m
      else if m.frames.length < maxFrames then
        .ok () { m with frames := ⟨c, 0, m.values.length - 1 - count⟩ :: m.frames }
      else .error (.runtime .stackOverflow) m := by
  simp only [call, bind_apply, ite_apply, fail_apply, slotBelow_apply, if_pos h, get_apply,
    modify_apply]

end LoxMachine.Machine
