import Mathlib.Data.List.Forall2
import LoxMachine.Proofs.Compile.Bodies

/-!
# Slots

A stack is listed from its top down, its slots are numbered from the bottom up. `atSlot?` looks a
slot up, `setSlot` changes one.
-/

namespace LoxMachine

section Slots

variable {α β : Type}

/-- The entry of a slot. -/
def atSlot? (xs : List α) (slot : Nat) : Option α :=
  xs.reverse[slot]?

theorem atSlot?_nil (slot : Nat) : atSlot? ([] : List α) slot = none := by
  simp [atSlot?]

theorem atSlot?_cons (x : α) (xs : List α) (slot : Nat) :
    atSlot? (x :: xs) slot = if slot = xs.length then some x else atSlot? xs slot := by
  unfold atSlot?
  rw [List.reverse_cons, List.getElem?_append, List.length_reverse]
  split
  · rw [if_neg (by omega)]
  · split
    · simp [*]
    · rw [List.getElem?_eq_none (by simp; omega), List.getElem?_eq_none (by simp; omega)]

theorem lt_of_atSlot? {xs : List α} {slot : Nat} {x : α} (h : atSlot? xs slot = some x) :
    slot < xs.length := by
  have := (List.getElem?_eq_some_iff.mp h).1
  rwa [List.length_reverse] at this

theorem mem_of_atSlot? {xs : List α} {slot : Nat} {x : α} (h : atSlot? xs slot = some x) :
    x ∈ xs :=
  List.mem_reverse.mp (List.mem_of_getElem? h)

theorem atSlot?_eq_none {xs : List α} {slot : Nat} : atSlot? xs slot = none ↔ xs.length ≤ slot := by
  rw [atSlot?, List.getElem?_eq_none_iff, List.length_reverse]

theorem atSlot?_isSome {xs : List α} {slot : Nat} (h : slot < xs.length) :
    ∃ x, atSlot? xs slot = some x :=
  Option.ne_none_iff_exists'.mp fun hnone => absurd (atSlot?_eq_none.mp hnone) (by omega)

/-- Slots below others keep their numbers. -/
theorem atSlot?_append_right (top below : List α) {slot : Nat} (h : slot < below.length) :
    atSlot? (top ++ below) slot = atSlot? below slot := by
  unfold atSlot?
  rw [List.reverse_append, List.getElem?_append_left (by simpa using h)]

/-- Slots above others are numbered from there on. -/
theorem atSlot?_append_left (top below : List α) (slot : Nat) :
    atSlot? (top ++ below) (below.length + slot) = atSlot? top slot := by
  unfold atSlot?
  rw [List.reverse_append, List.getElem?_append_right (by simp)]
  simp

theorem atSlot?_append_of_some {top below : List α} {slot : Nat} {x : α}
    (h : atSlot? below slot = some x) : atSlot? (top ++ below) slot = some x := by
  rw [atSlot?_append_right top below (lt_of_atSlot? h), h]

theorem atSlot?_cons_of_some {y : α} {below : List α} {slot : Nat} {x : α}
    (h : atSlot? below slot = some x) : atSlot? (y :: below) slot = some x :=
  show atSlot? ([y] ++ below) slot = some x from atSlot?_append_of_some h

theorem atSlot?_map (f : α → β) (xs : List α) (slot : Nat) :
    atSlot? (xs.map f) slot = (atSlot? xs slot).map f := by
  rw [atSlot?, ← List.map_reverse, List.getElem?_map, atSlot?]

theorem localAt?_eq_atSlot? (locals : List Local) (slot : Nat) :
    Body.localAt? locals slot = atSlot? locals slot :=
  rfl

/-- Related lists are related slot by slot. -/
theorem forall₂_atSlot? {R : α → β → Prop} {xs : List α} {ys : List β} (h : List.Forall₂ R xs ys)
    {slot : Nat} {y : β} (hy : atSlot? ys slot = some y) :
    ∃ x, atSlot? xs slot = some x ∧ R x y := by
  induction h with
  | nil => rw [atSlot?_nil] at hy; cases hy
  | cons hr ht ih =>
      rw [atSlot?_cons] at hy ⊢
      rw [List.Forall₂.length_eq ht]
      split at hy
      · rename_i heq
        obtain rfl := Option.some.inj hy
        exact ⟨_, if_pos heq, hr⟩
      · rename_i hne
        obtain ⟨x, hx, hr'⟩ := ih hy
        exact ⟨x, (if_neg hne).trans hx, hr'⟩

/-- Related lists are related entry by entry. -/
theorem forall₂_getElem? {R : α → β → Prop} {xs : List α} {ys : List β} (h : List.Forall₂ R xs ys)
    {i : Nat} {x : α} (hx : xs[i]? = some x) : ∃ y, ys[i]? = some y ∧ R x y := by
  induction h generalizing i with
  | nil => simp at hx
  | cons hr _ ih =>
      cases i with
      | zero =>
          obtain rfl := Option.some.inj hx
          exact ⟨_, rfl, hr⟩
      | succ i => exact ih hx

/-! ## Changing a slot -/

/-- A stack with another entry in a slot. -/
def setSlot (xs : List α) (slot : Nat) (x : α) : List α :=
  (xs.reverse.set slot x).reverse

theorem length_setSlot (xs : List α) (slot : Nat) (x : α) : (setSlot xs slot x).length = xs.length := by
  simp [setSlot]

theorem atSlot?_setSlot (xs : List α) (slot : Nat) (x : α) (s : Nat) :
    atSlot? (setSlot xs slot x) s =
      if slot = s then (if s < xs.length then some x else none) else atSlot? xs s := by
  unfold atSlot? setSlot
  rw [List.reverse_reverse, List.getElem?_set, List.length_reverse]
  split
  · subst slot
    rfl
  · rfl

/-- The entry at the end of a list is in the slot that those behind it number. -/
theorem setSlot_append (top : List α) (y : α) (below : List α) (x : α) :
    setSlot (top ++ y :: below) below.length x = top ++ x :: below := by
  unfold setSlot
  rw [List.reverse_append, List.reverse_cons, List.append_assoc, List.set_append_right _ _ (by simp)]
  simp

theorem setSlot_cons (y : α) (xs : List α) (slot : Nat) (x : α) :
    setSlot (y :: xs) slot x = if slot = xs.length then x :: xs else y :: setSlot xs slot x := by
  unfold setSlot
  rw [List.reverse_cons, List.set_append, List.length_reverse]
  split
  · rw [if_neg (by omega)]
    simp
  · split
    · simp [*]
    · rw [List.set_eq_of_length_le (by simp; omega), List.set_eq_of_length_le (by simp; omega)]
      simp

/-- A slot below others changes below them. -/
theorem setSlot_append_right (top below : List α) {slot : Nat} (h : slot < below.length) (x : α) :
    setSlot (top ++ below) slot x = top ++ setSlot below slot x := by
  unfold setSlot
  rw [List.reverse_append, List.set_append_left _ _ (by simpa using h), List.reverse_append,
    List.reverse_reverse]

theorem forall₂_setSlot {R : α → β → Prop} {xs : List α} {ys : List β} (h : List.Forall₂ R xs ys)
    {slot : Nat} {x : α} (hx : ∀ y, atSlot? ys slot = some y → R x y) :
    List.Forall₂ R (setSlot xs slot x) ys := by
  induction h with
  | nil => exact .nil
  | cons hr ht ih =>
      rw [setSlot_cons, List.Forall₂.length_eq ht]
      split
      · rename_i heq
        refine .cons (hx _ ?_) ht
        rw [atSlot?_cons, if_pos heq]
      · rename_i hne
        refine .cons hr (ih fun y hy => hx y ?_)
        rw [atSlot?_cons, if_neg hne, hy]

end Slots

end LoxMachine
