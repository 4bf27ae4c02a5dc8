import Mathlib.Data.List.TakeDrop
import LoxMachine.Proofs.Machine.Stack

/-!
# Captured variables

Making and closing the cells of captured variables. `closeFrom_apply` says what closing does to the
machine, `closeCells_of_mem` and `closeCells_of_not_mem` what becomes of each cell.
-/

namespace LoxMachine.Machine

/-! ## Closing cells -/

section CloseCells

variable {stack : Array Value} {l : List (Nat × Nat)} {s : Store}

theorem closeCells_cons (slot c : Nat) :
    closeCells stack ((slot, c) :: l) s =
      closeCells stack l ((stack[slot]?).elim s (s.setCell c)) :=
  rfl

/-- Closing changes nothing but cells. -/
theorem closeCells_eq (stack : Array Value) (l : List (Nat × Nat)) (s : Store) :
    closeCells stack l s = { s with cells := (closeCells stack l s).cells } := by
  induction l generalizing s with
  | nil => rfl
  | cons x l ih =>
      obtain ⟨slot, c⟩ := x
      rw [closeCells_cons]
      cases stack[slot]? with
      | none => exact ih s
      | some v => exact ih (s.setCell c v)

theorem size_closeCells : (closeCells stack l s).cells.size = s.cells.size := by
  induction l generalizing s with
  | nil => rfl
  | cons x l ih =>
      obtain ⟨slot, c⟩ := x
      rw [closeCells_cons, ih]
      cases stack[slot]? with
      | none => rfl
      | some v => exact Array.size_setIfInBounds

theorem closeCells_of_not_mem {c : Nat} (h : ∀ slot, (slot, c) ∉ l) :
    (closeCells stack l s).cells[c]? = s.cells[c]? := by
  induction l generalizing s with
  | nil => rfl
  | cons x l ih =>
      obtain ⟨slot, c'⟩ := x
      have hne : c' ≠ c := by
        rintro rfl
        exact h slot List.mem_cons_self
      rw [closeCells_cons, ih fun slot' hmem => h slot' (List.mem_cons_of_mem _ hmem)]
      cases stack[slot]? with
      | none => rfl
      | some v => exact Array.getElem?_setIfInBounds_ne hne

theorem closeCells_of_mem {slot c : Nat} {v : Value} (hmem : (slot, c) ∈ l)
    (hslot : ∀ slot', (slot', c) ∈ l → slot' = slot) (hv : stack[slot]? = some v)
    (hc : c < s.cells.size) : (closeCells stack l s).cells[c]? = some (.closed v) := by
  induction l generalizing s with
  | nil => cases hmem
  | cons x l ih =>
      obtain ⟨slot', c'⟩ := x
      rw [closeCells_cons]
      have hrest : ∀ slot', (slot', c) ∈ l → slot' = slot := fun slot' h =>
        hslot slot' (List.mem_cons_of_mem _ h)
      by_cases hl : (slot, c) ∈ l
      · refine ih hl hrest ?_
        cases stack[slot']? with
        | none => exact hc
        | some v' => exact Nat.lt_of_lt_of_eq hc Array.size_setIfInBounds.symm
      · obtain heq | h := List.mem_cons.mp hmem
        · obtain ⟨rfl, rfl⟩ := Prod.mk.inj heq
          rw [closeCells_of_not_mem fun slot' h => hl (hrest slot' h ▸ h), hv]
          exact Array.getElem?_setIfInBounds_self_of_lt hc
        · exact absurd h hl

/-- A slot beyond the stack has no value to close a cell with. -/
theorem closeCells_of_none {slot c : Nat} (hslot : ∀ slot', (slot', c) ∈ l → slot' = slot)
    (hv : stack[slot]? = none) : (closeCells stack l s).cells[c]? = s.cells[c]? := by
  induction l generalizing s with
  | nil => rfl
  | cons x l ih =>
      obtain ⟨slot', c'⟩ := x
      rw [closeCells_cons, ih fun slot' h => hslot slot' (List.mem_cons_of_mem _ h)]
      by_cases hc : c' = c
      · subst hc
        rw [hslot slot' List.mem_cons_self, hv]
        rfl
      · cases stack[slot']? with
        | none => rfl
        | some v => exact Array.getElem?_setIfInBounds_ne hc

end CloseCells

/-- The machine with the cells from `slot` on detached from the stack. -/
def closed (m : Machine) (slot : Nat) : Machine :=
  { m with
    openCells := m.openCells.dropWhile (slot ≤ ·.1)
    store := closeCells m.stack (m.openCells.takeWhile (slot ≤ ·.1)) m.store }

theorem closeFrom_apply (m : Machine) (slot : Nat) :
    closeFrom slot m =
      if (m.openCells.takeWhile (slot ≤ ·.1)).any (m.stack.size ≤ ·.1) then
        .error (.violation .stackUnderflow) (m.closed slot)
      else .ok () (m.closed slot) := by
  simp only [closeFrom, bind_apply, get_apply, List.span_eq_takeWhile_dropWhile, modify_apply]
  split <;> rfl

section Closed

variable {m : Machine} {slot : Nat}

theorem values_closed : (m.closed slot).values = m.values := rfl

end Closed

/-! ## Open cells in order -/

/-- Open cells are listed from the top of the stack down, one for each slot. -/
def Descending (l : List (Nat × Nat)) : Prop :=
  l.Pairwise fun a b => b.1 < a.1

section Descending

variable {l : List (Nat × Nat)} {slot : Nat} {x : Nat × Nat}

theorem Descending.mem_takeWhile (h : Descending l) :
    x ∈ l.takeWhile (slot ≤ ·.1) ↔ x ∈ l ∧ slot ≤ x.1 := by
  induction h with
  | nil => simp
  | @cons y l hy _ ih =>
      by_cases hs : slot ≤ y.1
      · rw [List.takeWhile_cons_of_pos (by simpa using hs), List.mem_cons, List.mem_cons, ih]
        constructor
        · rintro (rfl | h)
          · exact ⟨.inl rfl, hs⟩
          · exact ⟨.inr h.1, h.2⟩
        · rintro ⟨rfl | h, hx⟩
          · exact .inl rfl
          · exact .inr ⟨h, hx⟩
      · rw [List.takeWhile_cons_of_neg (by simpa using hs)]
        simp only [List.not_mem_nil, List.mem_cons, false_iff]
        rintro ⟨rfl | h, hx⟩
        · exact hs hx
        · exact hs (Nat.le_trans hx (Nat.le_of_lt (hy _ h)))

theorem Descending.mem_dropWhile (h : Descending l) :
    x ∈ l.dropWhile (slot ≤ ·.1) ↔ x ∈ l ∧ x.1 < slot := by
  induction h with
  | nil => simp
  | @cons y l hy _ ih =>
      by_cases hs : slot ≤ y.1
      · rw [List.dropWhile_cons_of_pos (by simpa using hs), List.mem_cons, ih]
        constructor
        · rintro ⟨h, hx⟩
          exact ⟨.inr h, hx⟩
        · rintro ⟨rfl | h, hx⟩
          · omega
          · exact ⟨h, hx⟩
      · rw [List.dropWhile_cons_of_neg (by simpa using hs), List.mem_cons]
        constructor
        · rintro (rfl | h)
          · exact ⟨.inl rfl, by omega⟩
          · exact ⟨.inr h, Nat.lt_trans (hy _ h) (by omega)⟩
        · exact And.left

theorem Descending.dropWhile (h : Descending l) : Descending (l.dropWhile (slot ≤ ·.1)) :=
  List.Pairwise.sublist (List.dropWhile_sublist _) h

theorem mem_of_lookup {c : Nat} (h : l.lookup slot = some c) : (slot, c) ∈ l := by
  induction l with
  | nil => cases h
  | cons y l ih =>
      obtain ⟨s, c'⟩ := y
      rw [List.lookup_cons] at h
      split at h
      · rename_i heq
        obtain rfl := beq_iff_eq.mp heq
        obtain rfl := Option.some.inj h
        exact List.mem_cons_self
      · exact List.mem_cons_of_mem _ (ih h)

theorem not_mem_of_lookup {c : Nat} (h : l.lookup slot = none) : (slot, c) ∉ l := by
  intro hmem
  induction l with
  | nil => cases hmem
  | cons y l ih =>
      obtain ⟨s, c'⟩ := y
      rw [List.lookup_cons] at h
      split at h
      · cases h
      · rename_i hne
        rcases List.mem_cons.mp hmem with heq | hmem
        · obtain ⟨rfl, rfl⟩ := Prod.mk.inj heq
          simp at hne
        · exact ih h hmem

/-- A new slot is listed in order. -/
theorem Descending.insertCell {c : Nat} (h : Descending l) (hnew : ∀ c', (slot, c') ∉ l) :
    Descending (insertCell slot c l) := by
  induction h with
  | nil => exact List.pairwise_singleton _ _
  | @cons y l hy hl ih =>
      obtain ⟨s, c'⟩ := y
      rw [Machine.insertCell]
      split
      · rename_i hlt
        refine .cons (fun x hx => ?_) (ih fun c' h => hnew c' (List.mem_cons_of_mem _ h))
        rcases mem_insertCell.mp hx with rfl | hx
        · exact hlt
        · exact hy x hx
      · rename_i hge
        have hne : s ≠ slot := by
          rintro rfl
          exact hnew c' List.mem_cons_self
        refine .cons (fun x hx => ?_) (.cons hy hl)
        rcases List.mem_cons.mp hx with rfl | hx
        · change s < slot
          omega
        · have := hy x hx
          change x.1 < slot
          omega

end Descending

end LoxMachine.Machine
