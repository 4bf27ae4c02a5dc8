import LoxMachine.Proofs.Meaning.Evaluator
import LoxMachine.Proofs.Syntax.Scope
import LoxMachine.Proofs.Typing.Slots

/-!
# Blocks and slots

The local variables of all open blocks lie on the stack one above the other, over one slot that has no
name. Looking a name up block by block finds what is in its slot.

Main statements: `Memory.get?_of_slotOf?` and `Memory.set?_of_slotOf?`.
-/

namespace LoxMachine.Syntax

variable {name : String} {n : Nat} {v c : Value} {bs : List Block} {M : Memory}

/-! ## One block -/

theorem Block.map_fst_assign (name : String) (v : Value) (b : Block) :
    (b.assign name v).map Prod.fst = b.map Prod.fst := by
  induction b with
  | nil => rfl
  | cons x b ih =>
      rw [assign]
      split
      · rfl
      · rw [List.map_cons, ih, List.map_cons]

theorem Block.assign_append (b d : Block) : Block.assign name v (b ++ d) =
    if (b.lookup name).isSome then b.assign name v ++ d else b ++ d.assign name v := by
  induction b with
  | nil => rfl
  | cons x b ih =>
      obtain ⟨x, w⟩ := x
      by_cases hx : x = name
      · simp [assign, hx]
      · have hbeq : (name == x) = false := beq_false_of_ne (Ne.symm hx)
        rw [List.cons_append, assign, if_neg hx, ih, List.lookup_cons, hbeq]
        split <;> simp [assign, hx]

theorem lookup_of_slotOf? {b : Block} (hne : name ≠ "")
    (h : slotOf? name (b.map Prod.fst ++ [""]) = some n) :
    ∃ w, b.lookup name = some w ∧ ∀ callee, atSlot? (b.map Prod.snd ++ [callee]) n = some w := by
  induction b with
  | nil => simp [slotOf?, hne.symm] at h
  | cons x b ih =>
      obtain ⟨x, w⟩ := x
      rw [List.map_cons, List.cons_append, slotOf?] at h
      rw [List.lookup_cons]
      by_cases hx : x = name
      · rw [if_pos hx] at h
        obtain rfl := Option.some.inj h
        exact ⟨w, by simp [hx], fun _ => by simp [atSlot?_cons]⟩
      · have hbeq : (name == x) = false := beq_false_of_ne (Ne.symm hx)
        rw [if_neg hx] at h
        obtain ⟨w, hw, hslot⟩ := ih h
        refine ⟨w, by rw [hbeq]; exact hw, fun callee => ?_⟩
        have hlt := lt_of_atSlot? (hslot callee)
        rw [List.map_cons, List.cons_append, atSlot?_cons, if_neg (Nat.ne_of_lt hlt), hslot]

theorem lookup_eq_none_of_slotOf? {b : Block} {names : List String}
    (h : slotOf? name (b.map Prod.fst ++ names) = none) : b.lookup name = none := by
  induction b with
  | nil => rfl
  | cons x b ih =>
      obtain ⟨x, w⟩ := x
      rw [List.map_cons, List.cons_append, slotOf?] at h
      split at h
      · cases h
      · rename_i hx
        rw [List.lookup_cons, beq_false_of_ne (Ne.symm hx)]
        exact ih h

theorem setSlot_of_slotOf? {b : Block} (hne : name ≠ "")
    (h : slotOf? name (b.map Prod.fst ++ [""]) = some n) :
    setSlot (b.map Prod.snd ++ [c]) n v = (b.assign name v).map Prod.snd ++ [c] := by
  induction b with
  | nil => simp [slotOf?, hne.symm] at h
  | cons x b ih =>
      obtain ⟨x, w⟩ := x
      rw [List.map_cons, List.cons_append, slotOf?] at h
      rw [List.map_cons, List.cons_append, setSlot_cons, Block.assign]
      by_cases hx : x = name
      · rw [if_pos hx] at h ⊢
        obtain rfl := Option.some.inj h
        rw [if_pos (by simp)]
        rfl
      · rw [if_neg hx] at h ⊢
        obtain ⟨w, -, hslot⟩ := lookup_of_slotOf? hne h
        rw [if_neg (Nat.ne_of_lt (lt_of_atSlot? (hslot c))), ih h]
        rfl

/-! ## All blocks -/

theorem findSome?_lookup (bs : List Block) (name : String) :
    bs.findSome? (·.lookup name) = bs.flatten.lookup name := by
  induction bs with
  | nil => rfl
  | cons b bs ih =>
      rw [List.findSome?_cons, List.flatten_cons, List.lookup_append, ih]
      cases b.lookup name <;> rfl

theorem assignIn_of_lookup {w : Value} (h : bs.flatten.lookup name = some w) :
    ∃ bs', assignIn name v bs = some bs' ∧ bs'.flatten = Block.assign name v bs.flatten ∧
      bs'.map (·.map Prod.fst) = bs.map (·.map Prod.fst) := by
  induction bs with
  | nil => cases h
  | cons b bs ih =>
      rw [List.flatten_cons, List.lookup_append] at h
      rw [assignIn, List.flatten_cons, Block.assign_append]
      cases hb : b.lookup name with
      | some w' => exact ⟨_, rfl, rfl, by rw [List.map_cons, Block.map_fst_assign, List.map_cons]⟩
      | none =>
          rw [hb, Option.none_or] at h
          obtain ⟨bs', hassign, hflatten, hnames⟩ := ih h
          refine ⟨b :: bs', ?_, ?_, ?_⟩
          · simp [hassign]
          · simp [hflatten]
          · simp [hnames]

theorem assignIn_of_none (h : bs.flatten.lookup name = none) : assignIn name v bs = none := by
  induction bs with
  | nil => rfl
  | cons b bs ih =>
      rw [List.flatten_cons, List.lookup_append, Option.or_eq_none_iff] at h
      rw [assignIn, h.1, ih h.2]
      rfl

namespace Memory

/-- All local variables, the newest first. -/
def locals (M : Memory) : Block :=
  M.blocks.flatten

/-- The names of the local variables, block by block. -/
def names (M : Memory) : List (List String) :=
  M.blocks.map (·.map Prod.fst)

/-- The stack below what is being computed. -/
def slots (M : Memory) (callee : Value) : List Value :=
  M.locals.map Prod.snd ++ [callee]

theorem map_fst_locals (M : Memory) : M.locals.map Prod.fst = M.names.flatten := by
  rw [locals, names, List.map_flatten]

theorem get?_of_slotOf? (hne : name ≠ "") (h : slotOf? name (M.names.flatten ++ [""]) = some n) :
    ∃ w, M.get? name = some w ∧ ∀ callee, atSlot? (M.slots callee) n = some w := by
  rw [← map_fst_locals] at h
  obtain ⟨w, hw, hslot⟩ := lookup_of_slotOf? hne h
  exact ⟨w, by rw [get?, findSome?_lookup, ← locals, hw]; rfl, hslot⟩

theorem get?_of_none (h : slotOf? name (M.names.flatten ++ [""]) = none) :
    M.get? name = M.globals[name]? := by
  rw [← map_fst_locals] at h
  rw [get?, findSome?_lookup, ← locals, lookup_eq_none_of_slotOf? h, Option.none_or]

theorem read_of_none (h : slotOf? name (M.names.flatten ++ [""]) = none) :
    Memory.read name M = ofExcept (match M.globals[name]? with
      | some v => .ok v
      | none => .error (.undefinedVariable name)) M := by
  rw [read_apply, get?_of_none h]
  cases M.globals[name]? <;> rfl

theorem set?_of_slotOf? (hne : name ≠ "") (h : slotOf? name (M.names.flatten ++ [""]) = some n) :
    ∃ bs, M.set? name v = some { M with blocks := bs } ∧
      ({ M with blocks := bs } : Memory).names = M.names ∧
      ∀ callee, setSlot (M.slots callee) n v = ({ M with blocks := bs } : Memory).slots callee := by
  rw [← map_fst_locals] at h
  obtain ⟨w, hw, -⟩ := lookup_of_slotOf? hne h
  obtain ⟨bs, hassign, hflatten, hnames⟩ := assignIn_of_lookup (v := v) hw
  refine ⟨bs, by rw [set?, hassign], hnames, fun callee => ?_⟩
  rw [slots, setSlot_of_slotOf? hne h, slots, locals, locals, ← hflatten]

theorem set?_of_none (h : slotOf? name (M.names.flatten ++ [""]) = none) :
    M.set? name v =
      if M.globals.contains name then some { M with globals := M.globals.insert name v } else none := by
  rw [← map_fst_locals] at h
  rw [set?, assignIn_of_none (lookup_eq_none_of_slotOf? h)]

end Memory

end LoxMachine.Syntax
