import Mathlib.Data.List.Nodup
import LoxMachine.Proofs.Reference.Machine
import LoxMachine.Proofs.Twin.Store

/-!
# Cells that stand for variables

When a machine of cells does the same as the machine with its open and closed variables (`Reflects`).
The cells that closures name are paired one to one (`Naming`); up to that the values are the same.
A variable that is open has its value in a slot of the stack, and the cell paired with it is the one
of that position; one that is closed has its value to itself, and the cell is not on the stack any
more.
-/

namespace LoxMachine

open Std (HashMap)
open Machine

/-! ## Values -/

/-- Which cells of the heap stand for the captured variables of a machine, one for each. -/
structure Naming where
  pair : Nat → Nat → Prop
  single : Relator.BiUnique pair

/-- Closures of the same function, with the same variables. -/
structure Naming.Agree (N : Naming) (c c' : Closure) : Prop where
  id : c'.id = c.id
  function : c'.function = c.function
  cells : List.Forall₂ N.pair c.cells.toList c'.cells.toList

/-- The same value, but for the names of cells. -/
inductive Naming.Like (N : Naming) : Value → Value → Prop where
  | fixed {v} : v.Fixed → N.Like v v
  | closure {c c'} : N.Agree c c' → N.Like (.closure c) (.closure c')
  | bound {id r r' c c'} : N.Like r r' → N.Agree c c' → N.Like (.bound id r c) (.bound id r' c')

structure Naming.Le (N N' : Naming) : Prop where
  pair : ∀ c d, N.pair c d → N'.pair c d

theorem Value.IsPlain.fixed {v : Value} (h : v.IsPlain) : v.Fixed := by
  cases v <;> trivial

section Values

variable {N N' : Naming} {c c' e e' : Closure} {v v' u u' : Value}

theorem Naming.Le.refl (N : Naming) : N.Le N :=
  ⟨fun _ _ => id⟩

theorem Naming.Agree.mono (h : N.Agree c c') (hN : N.Le N') : N'.Agree c c' :=
  ⟨h.id, h.function, h.cells.imp hN.pair⟩

theorem Naming.Like.mono (h : N.Like v v') (hN : N.Le N') : N'.Like v v' := by
  induction h with
  | fixed h => exact .fixed h
  | closure h => exact .closure (h.mono hN)
  | bound _ h ih => exact .bound ih (h.mono hN)

/-- Closures are the same on the one side exactly when they are on the other. -/
theorem Naming.Agree.eq_iff (h : N.Agree c c') (h' : N.Agree e e') : c = e ↔ c' = e' := by
  have hcells : c.cells.toList = e.cells.toList ↔ c'.cells.toList = e'.cells.toList :=
    Relator.rel_eq N.single.forall₂ h.cells h'.cells
  rw [Array.toList_inj, Array.toList_inj] at hcells
  obtain ⟨id, function, cells⟩ := c
  obtain ⟨id', function', cells'⟩ := e
  obtain ⟨_, _, newCells⟩ := c'
  obtain ⟨_, _, newCells'⟩ := e'
  obtain ⟨rfl, rfl, -⟩ := h
  obtain ⟨rfl, rfl, -⟩ := h'
  rw [Closure.mk.injEq, Closure.mk.injEq, hcells]

theorem Naming.Like.eq_iff (h : N.Like v v') (h' : N.Like u u') : v = u ↔ v' = u' := by
  induction h generalizing u u' with
  | @fixed v hv =>
      cases h' with
      | fixed => rfl
      | closure | bound =>
          cases v with
          | function | closure | bound => exact hv.elim
          | _ => exact iff_of_false nofun nofun
  | closure h =>
      cases h' with
      | @fixed u hu =>
          cases u with
          | function | closure | bound => exact hu.elim
          | _ => exact iff_of_false nofun nofun
      | closure h' => rw [Value.closure.injEq, Value.closure.injEq, h.eq_iff h']
      | bound => exact iff_of_false nofun nofun
  | bound _ h ih =>
      cases h' with
      | @fixed u hu =>
          cases u with
          | function | closure | bound => exact hu.elim
          | _ => exact iff_of_false nofun nofun
      | closure => exact iff_of_false nofun nofun
      | bound hr h' => rw [Value.bound.injEq, Value.bound.injEq, ih hr, h.eq_iff h']

theorem Naming.Like.same_eq (h : N.Like v v') (h' : N.Like u u') : v'.same u' = v.same u := by
  have heq := h.eq_iff h'
  cases h with
  | @fixed v hv =>
      cases h' with
      | fixed => rfl
      | closure | bound =>
          cases v with
          | function | closure | bound => exact hv.elim
          | _ => rfl
  | closure =>
      cases h' with
      | @fixed u => cases u <;> exact decide_eq_decide.mpr heq.symm
      | closure | bound => exact decide_eq_decide.mpr heq.symm
  | bound =>
      cases h' with
      | @fixed u => cases u <;> exact decide_eq_decide.mpr heq.symm
      | closure | bound => exact decide_eq_decide.mpr heq.symm

theorem Naming.Like.isFalsey_eq (h : N.Like v v') : v'.isFalsey = v.isFalsey := by
  cases h <;> rfl

theorem Naming.Like.toString_eq (h : N.Like v v') : v'.toString = v.toString := by
  cases h with
  | fixed => rfl
  | closure h | bound _ h => exact congrArg Function.toString h.function

theorem Naming.Like.debug_eq (h : N.Like v v') : v'.debug = v.debug := by
  have htext := h.toString_eq
  cases h with
  | fixed => rfl
  | closure | bound => exact congrArg (fun text => "Obj(" ++ text ++ ")") htext

end Values

/-! ## Machines -/

/-- A cell with this value in it. -/
def Naming.Holds (N : Naming) (heap : Array Value) (v : Value) (d : Nat) : Prop :=
  ∃ v', heap[d]? = some v' ∧ N.Like v v'

/-- A cell that stands for a captured variable. -/
def Naming.Stands (N : Naming) (s : CellMachine) (d : Nat) : Cell → Prop
  | .inSlot slot => atSlot? s.stack slot = some d
  | .closed v => d ∉ s.stack ∧ N.Holds s.heap v d

/-- Calls of the same closure that are at the same point. -/
structure Naming.SameCall (N : Naming) (f f' : Frame) : Prop where
  closure : N.Agree f.closure f'.closure
  ip : f'.ip = f.ip
  base : f'.base = f.base

/-- A machine and a machine of cells that are in the same state. No closure shares any of the `k`
positions at the top of the stack. -/
structure Reflects (N : Naming) (k : Nat) (m : Machine) (s : CellMachine) : Prop where
  tidy : m.Tidy
  free : ∀ x ∈ m.openCells, x.1 + k < m.values.length
  distinct : s.stack.Nodup
  values : List.Forall₂ (N.Holds s.heap) m.values s.stack
  cells : ∀ c d, N.pair c d → ∃ x, m.store.cells[c]? = some x ∧ N.Stands s d x
  named : ∀ slot c, (slot, c) ∈ m.openCells → ∃ d, N.pair c d
  frames : List.Forall₂ N.SameCall m.frames s.frames
  chunks : s.store.chunks = m.store.chunks
  natives : m.store.natives = #[clock] ∧ s.store.natives = #[clock]
  nextId : s.store.nextId = m.store.nextId
  globals : ∀ name : String, Option.Rel N.Like m.globals[name]? s.globals[name]?
  methods : ∀ c name, Option.Rel N.Agree (m.store.method? c name) (s.store.method? c name)
  classes : s.store.methods.size = m.store.methods.size
  fields : ∀ o name, Option.Rel N.Like (m.store.field? o name) (s.store.field? o name)
  objects : s.store.fields.size = m.store.fields.size
  console : s.console = m.console
  time : s.time = m.time

section Cells

variable {N N' : Naming} {heap : Array Value} {v v' u : Value} {d e : Nat}

theorem Naming.Holds.lt (h : N.Holds heap v d) : d < heap.size :=
  have ⟨_, hv, _⟩ := h
  (Array.getElem?_eq_some_iff.mp hv).1

theorem Naming.Holds.push (h : N.Holds heap v d) (u : Value) : N.Holds (heap.push u) v d := by
  obtain ⟨v', hv, hlike⟩ := h
  have hlt := (Array.getElem?_eq_some_iff.mp hv).1
  exact ⟨v', by rwa [Array.getElem?_push_lt hlt, ← Array.getElem?_eq_getElem hlt], hlike⟩

theorem Naming.Holds.new (hv : N.Like v v') : N.Holds (heap.push v') v heap.size :=
  ⟨v', Array.getElem?_push_size, hv⟩

theorem Naming.Holds.write (h : N.Holds heap v d) (hne : e ≠ d) (u : Value) :
    N.Holds (heap.setIfInBounds e u) v d := by
  obtain ⟨v', hv, hlike⟩ := h
  exact ⟨v', by rwa [Array.getElem?_setIfInBounds_ne hne], hlike⟩

theorem Naming.Holds.written (h : N.Holds heap u d) (hv : N.Like v v') :
    N.Holds (heap.setIfInBounds d v') v d :=
  ⟨v', Array.getElem?_setIfInBounds_self_of_lt h.lt, hv⟩

theorem Naming.Holds.mono (h : N.Holds heap v d) (hN : N.Le N') : N'.Holds heap v d :=
  have ⟨v', hv, hlike⟩ := h
  ⟨v', hv, hlike.mono hN⟩

theorem Naming.SameCall.mono {f f' : Frame} (h : N.SameCall f f') (hN : N.Le N') : N'.SameCall f f' :=
  ⟨h.closure.mono hN, h.ip, h.base⟩

end Cells

/-- Lists of one length are related if they are so slot by slot. -/
theorem forall₂_of_atSlot? {α β : Type} {R : α → β → Prop} {xs : List α} {ys : List β}
    (hlength : xs.length = ys.length)
    (h : ∀ slot x y, atSlot? xs slot = some x → atSlot? ys slot = some y → R x y) :
    List.Forall₂ R xs ys := by
  rw [← List.forall₂_reverse_iff, List.forall₂_iff_get]
  refine ⟨by simpa using hlength, fun i hi hi' => h i _ _ ?_ ?_⟩
  · exact List.getElem?_eq_getElem hi
  · exact List.getElem?_eq_getElem hi'

/-- What is in a list is in one of its slots. -/
theorem exists_atSlot? {α : Type} {xs : List α} {x : α} (h : x ∈ xs) : ∃ slot, atSlot? xs slot = some x :=
  List.getElem?_of_mem (List.mem_reverse.mpr h)

/-- Closed variables are open no more. -/
theorem Machine.Tidy.closed {m : Machine} (h : m.Tidy) (hbelow : ∀ x ∈ m.openCells, x.1 < m.values.length)
    (base : Nat) : (m.closed base).Tidy where
  opened c slot := by
    change _ ↔ (slot, c) ∈ m.openCells.dropWhile (base ≤ ·.1)
    rw [h.descending.mem_dropWhile, ← h.opened]
    cases hc : m.store.cells[c]? with
    | none =>
        have hnot : ∀ slot', (slot', c) ∉ m.openCells.takeWhile (base ≤ ·.1) := fun slot' hmem => by
          simpa [hc] using (h.opened c slot').mpr (h.descending.mem_takeWhile.mp hmem).1
        rw [show (m.closed base).store.cells[c]? = none from (closeCells_of_not_mem hnot).trans hc]
        exact iff_of_false (by simp) (by simp)
    | some x =>
        rw [h.cell_closed hc]
        cases x with
        | closed v => exact iff_of_false (by simp [shut]) (by simp)
        | inSlot s =>
            obtain ⟨v, hv⟩ := atSlot?_isSome (hbelow _ ((h.opened c s).mp hc))
            rw [shut, hv]
            by_cases hle : base ≤ s
            · rw [if_pos hle]
              refine iff_of_false (by simp) ?_
              rintro ⟨heq, hlt⟩
              obtain rfl := Cell.inSlot.inj (Option.some.inj heq)
              exact absurd hlt (Nat.not_lt_of_le hle)
            · rw [if_neg hle]
              refine ⟨fun heq => ⟨heq, ?_⟩, And.left⟩
              obtain rfl := Cell.inSlot.inj (Option.some.inj heq)
              exact Nat.lt_of_not_le hle
  descending := h.descending.dropWhile

namespace Reflects

variable {N : Naming} {k : Nat} {m : Machine} {s : CellMachine} {v v' u : Value} {c d slot : Nat}

/-! ## The stack -/

theorem length_eq (M : Reflects N k m s) : s.stack.length = m.values.length :=
  M.values.length_eq.symm

theorem le (M : Reflects N k m s) {j : Nat} (hj : j ≤ k) : Reflects N j m s :=
  { M with free := fun x hx => by have := M.free x hx; omega }

/-- The cell of a slot holds the value in it. -/
theorem holds (M : Reflects N k m s) (hd : atSlot? s.stack slot = some d) :
    ∃ v, atSlot? m.values slot = some v ∧ N.Holds s.heap v d :=
  forall₂_atSlot? M.values hd

theorem cell_of_slot (M : Reflects N k m s) (hslot : slot < m.values.length) :
    ∃ d, atSlot? s.stack slot = some d :=
  atSlot?_isSome (M.length_eq ▸ hslot)

/-- A variable is open on the stack exactly when its cell is on it. -/
theorem slot_unique (M : Reflects N k m s) {slot' : Nat}
    (h : atSlot? s.stack slot = some d) (h' : atSlot? s.stack slot' = some d) :
    slot = slot' := by
  have hnodup := List.nodup_reverse.mpr M.distinct
  obtain ⟨hlt, hd⟩ := List.getElem?_eq_some_iff.mp h
  obtain ⟨hlt', hd'⟩ := List.getElem?_eq_some_iff.mp h'
  exact (hnodup.getElem_inj_iff).mp (hd.trans hd'.symm)

theorem lt_size (M : Reflects N k m s) (hd : d ∈ s.stack) : d < s.heap.size := by
  obtain ⟨i, hi⟩ := List.getElem?_of_mem hd
  obtain ⟨v, -, hv⟩ := forall₂_getElem? M.values.flip hi
  exact Naming.Holds.lt hv

/-- A value is pushed, into a new cell. -/
theorem push (M : Reflects N k m s) (hv : N.Like v v') :
    Reflects N (k + 1) (m.setValues (v :: m.values))
      { s with heap := s.heap.push v', stack := s.heap.size :: s.stack } := by
  have hnew : s.heap.size ∉ s.stack := fun h => Nat.lt_irrefl _ (M.lt_size h)
  refine { M with
    tidy := { M.tidy with }
    free := fun x hx => ?_
    distinct := List.nodup_cons.mpr ⟨hnew, M.distinct⟩
    values := ?_
    cells := fun c d hcd => ?_ }
  · have := M.free x hx
    rw [values_setValues, List.length_cons]
    omega
  · rw [values_setValues]
    exact .cons (.new hv) (M.values.imp fun _ _ h => h.push v')
  · obtain ⟨x, hx, hstands⟩ := M.cells c d hcd
    refine ⟨x, hx, ?_⟩
    cases x with
    | inSlot slot => exact atSlot?_cons_of_some hstands
    | closed u =>
        refine ⟨fun hmem => ?_, hstands.2.push v'⟩
        rcases List.mem_cons.mp hmem with rfl | hmem
        · exact Nat.lt_irrefl _ hstands.2.lt
        · exact hstands.1 hmem

/-- Positions that no closure shares are dropped. -/
theorem drop (M : Reflects N (k + d) m s) :
    Reflects N k (m.setValues (m.values.drop d)) { s with stack := s.stack.drop d } := by
  have hlength := M.length_eq
  refine { M with
    tidy := { M.tidy with }
    free := fun x hx => ?_
    distinct := M.distinct.sublist (List.drop_sublist d s.stack)
    values := ?_
    cells := fun c e hce => ?_ }
  · have := M.free x hx
    rw [values_setValues, List.length_drop]
    omega
  · rw [values_setValues]
    exact List.forall₂_drop d M.values
  · obtain ⟨x, hx, hstands⟩ := M.cells c e hce
    refine ⟨x, hx, ?_⟩
    cases x with
    | inSlot slot =>
        have hfree := M.free _ ((M.tidy.opened c slot).mp hx)
        change slot + (k + d) < m.values.length at hfree
        change atSlot? s.stack slot = some e at hstands
        rw [← List.take_append_drop d s.stack, atSlot?_append_right _ _ (by
          rw [List.length_drop]; omega)] at hstands
        exact hstands
    | closed u => exact ⟨fun hmem => hstands.1 (List.mem_of_mem_drop hmem), hstands.2⟩

/-! ## Assignments -/

/-- A slot and its cell are given a value. -/
theorem assign (M : Reflects N k m s) (hd : atSlot? s.stack slot = some d) (hv : N.Like v v') :
    Reflects N k (m.setValues (setSlot m.values slot v)) { s with heap := s.heap.setIfInBounds d v' } := by
  obtain ⟨u, hu, hholds⟩ := M.holds hd
  refine { M with
    tidy := { M.tidy with }
    free := fun x hx => ?_
    values := ?_
    cells := fun c e hce => ?_ }
  · rw [values_setValues, length_setSlot]
    exact M.free x hx
  · rw [values_setValues]
    refine forall₂_of_atSlot? ((length_setSlot _ _ _).trans M.length_eq.symm) fun slot' w e hw he => ?_
    rw [atSlot?_setSlot] at hw
    split at hw
    · subst slot'
      rw [if_pos (lt_of_atSlot? hu)] at hw
      obtain rfl := Option.some.inj hw
      obtain rfl := Option.some.inj (hd.symm.trans he)
      exact hholds.written hv
    · rename_i hne
      obtain ⟨w', hw', hold⟩ := M.holds he
      obtain rfl := Option.some.inj (hw.symm.trans hw')
      refine hold.write ?_ v'
      rintro rfl
      exact hne (M.slot_unique hd he)
  · obtain ⟨x, hx, hstands⟩ := M.cells c e hce
    refine ⟨x, hx, ?_⟩
    cases x with
    | inSlot slot => exact hstands
    | closed u =>
        refine ⟨hstands.1, hstands.2.write ?_ v'⟩
        rintro rfl
        exact hstands.1 (mem_of_atSlot? hd)

/-- A closed variable and its cell are given a value. -/
theorem assignClosed (M : Reflects N k m s) (hcd : N.pair c d) (hold : m.store.cells[c]? = some (.closed u))
    (hv : N.Like v v') :
    Reflects N k { m with store := m.store.setCell c v } { s with heap := s.heap.setIfInBounds d v' } := by
  obtain ⟨x, hx, hstands⟩ := M.cells c d hcd
  obtain rfl := Option.some.inj (hold.symm.trans hx)
  have hcell (e : Nat) : (m.store.setCell c v).cells[e]? =
      if c = e then some (.closed v) else m.store.cells[e]? := by
    rw [Store.setCell, Array.getElem?_setIfInBounds]
    split
    · rw [if_pos (Array.getElem?_eq_some_iff.mp hold).1]
    · rfl
  refine { M with
    tidy := ⟨fun e slot => ?_, M.tidy.descending⟩
    values := ?_
    cells := fun e e' he => ?_ }
  · change (m.store.setCell c v).cells[e]? = _ ↔ (slot, e) ∈ m.openCells
    rw [hcell, ← M.tidy.opened]
    split
    · subst e
      rw [hold]
      exact iff_of_false nofun nofun
    · rfl
  · refine forall₂_of_atSlot? M.values.length_eq fun slot w e hw he => ?_
    obtain ⟨w', hw', hholds⟩ := M.holds he
    obtain rfl := Option.some.inj (hw.symm.trans hw')
    refine hholds.write ?_ v'
    rintro rfl
    exact hstands.1 (mem_of_atSlot? he)
  · change ∃ x, (m.store.setCell c v).cells[e]? = some x ∧ _
    have hsame := Relator.rel_eq N.single hcd he
    rw [hcell]
    split
    · obtain rfl := hsame.mp ‹_›
      exact ⟨_, rfl, hstands.1, hstands.2.written hv⟩
    · rename_i hne
      obtain ⟨x, hx, hother⟩ := M.cells e e' he
      refine ⟨x, hx, ?_⟩
      cases x with
      | inSlot slot => exact hother
      | closed w => exact ⟨hother.1, hother.2.write (mt hsame.mpr hne) v'⟩

/-! ## Variables that leave the stack -/

/-- The positions from a slot on are dropped, where the machine closes the variables in them. -/
theorem close (M : Reflects N k m s) (base : Nat) :
    Reflects N 0 ((m.closed base).setValues (m.values.drop (m.values.length - base)))
      { s with stack := s.stack.drop (s.stack.length - base) } := by
  have hlength := M.length_eq
  have hbelow : ∀ x ∈ m.openCells, x.1 < m.values.length := fun x hx => by
    have := M.free x hx
    omega
  have htidy := M.tidy.closed hbelow base
  have hshut {c : Nat} {x : Cell} (hx : m.store.cells[c]? = some x) :
      (m.closed base).store.cells[c]? = some (m.shut base x) :=
    M.tidy.cell_closed hx
  -- Closing changes nothing but cells.
  obtain ⟨new, hclosed⟩ : ∃ new, m.closed base = { m with
      openCells := m.openCells.dropWhile (base ≤ ·.1)
      store := { m.store with cells := new } } :=
    ⟨_, by rw [closed, closeCells_eq]⟩
  rw [hclosed] at htidy hshut ⊢
  have hsplit := List.take_append_drop (s.stack.length - base) s.stack
  have hkept {d slot : Nat} (hd : atSlot? s.stack slot = some d) (hbase : slot < base) :
      atSlot? (s.stack.drop (s.stack.length - base)) slot = some d := by
    have hlt := lt_of_atSlot? hd
    rwa [← hsplit, atSlot?_append_right _ _ (by rw [List.length_drop]; omega)] at hd
  have hgone {d slot : Nat} (hd : atSlot? s.stack slot = some d) (hbase : base ≤ slot) :
      d ∉ s.stack.drop (s.stack.length - base) := by
    intro hmem
    obtain ⟨slot', hd'⟩ := exists_atSlot? hmem
    have hlt := lt_of_atSlot? hd'
    rw [List.length_drop] at hlt
    obtain rfl := M.slot_unique hd (hsplit ▸ atSlot?_append_of_some hd')
    omega
  refine { M with
    tidy := { htidy with }
    free := fun x hx => ?_
    distinct := M.distinct.sublist (List.drop_sublist _ s.stack)
    values := ?_
    cells := fun c d hcd => ?_
    named := fun slot c hmem => M.named slot c (M.tidy.descending.mem_dropWhile.mp hmem).1 }
  · obtain ⟨hx, hlt⟩ := M.tidy.descending.mem_dropWhile.mp hx
    have := hbelow x hx
    rw [values_setValues, List.length_drop]
    omega
  · rw [values_setValues, hlength]
    exact List.forall₂_drop _ M.values
  · obtain ⟨x, hx, hstands⟩ := M.cells c d hcd
    refine ⟨_, hshut hx, ?_⟩
    cases x with
    | closed v => exact ⟨fun hmem => hstands.1 (List.mem_of_mem_drop hmem), hstands.2⟩
    | inSlot slot =>
        obtain ⟨v, hv, hholds⟩ := M.holds hstands
        rw [shut, hv]
        by_cases hle : base ≤ slot
        · rw [if_pos hle]
          exact ⟨hgone hstands hle, hholds⟩
        · rw [if_neg hle]
          exact hkept hstands (Nat.lt_of_not_le hle)

/-! ## Variables that are captured -/

/-- Variables are captured: the cells of their positions stand for them from then on. -/
theorem share {m₁ : Machine} (M : Reflects N k m s) (hm : m.Grows m₁) (htidy : m₁.Tidy)
    (hbelow : ∀ x ∈ m₁.openCells, x.1 < m.values.length) :
    ∃ N' : Naming, N.Le N' ∧ Reflects N' 0 m₁ s ∧
      ∀ slot c d, (slot, c) ∈ m₁.openCells → atSlot? s.stack slot = some d → N'.pair c d := by
  have hopen {c d slot : Nat} (hcd : N.pair c d) :
      (slot, c) ∈ m₁.openCells ↔ atSlot? s.stack slot = some d := by
    obtain ⟨x, hx, hstands⟩ := M.cells c d hcd
    rw [← htidy.opened, hm.cells c x hx]
    cases x with
    | closed v => exact iff_of_false nofun fun h => hstands.1 (mem_of_atSlot? h)
    | inSlot s' =>
        constructor
        · intro h
          obtain rfl := Cell.inSlot.inj (Option.some.inj h)
          exact hstands
        · intro h
          rw [M.slot_unique hstands h]
  let N' : Naming := {
    pair := fun c d => N.pair c d ∨ ∃ slot, (slot, c) ∈ m₁.openCells ∧ atSlot? s.stack slot = some d
    single := by
      constructor
      · rintro c c' d (hc | ⟨slot, hc, hd⟩) (hc' | ⟨slot', hc', hd'⟩)
        · exact N.single.1 hc hc'
        · exact htidy.unique ((hopen hc).mpr hd') hc'
        · exact htidy.unique hc ((hopen hc').mpr hd)
        · obtain rfl := M.slot_unique hd hd'
          exact htidy.unique hc hc'
      · rintro c d d' (hc | ⟨slot, hc, hd⟩) (hc' | ⟨slot', hc', hd'⟩)
        · exact N.single.2 hc hc'
        · exact Option.some.inj (((hopen hc).mp hc').symm.trans hd')
        · exact Option.some.inj (hd.symm.trans ((hopen hc').mp hc))
        · have hcell := ((htidy.opened c slot).mpr hc).symm.trans ((htidy.opened c slot').mpr hc')
          obtain rfl := Cell.inSlot.inj (Option.some.inj hcell)
          exact Option.some.inj (hd.symm.trans hd') }
  have hN : N.Le N' := ⟨fun _ _ => .inl⟩
  refine ⟨N', hN, ?_, fun slot c d hc hd => .inr ⟨slot, hc, hd⟩⟩
  obtain ⟨cells, openCells, rfl⟩ : ∃ cells openCells,
      m₁ = { m with store := { m.store with cells }, openCells } :=
    ⟨_, _, hm.eq⟩
  exact { M with
    tidy := htidy
    free := hbelow
    values := M.values.imp fun _ _ h => h.mono hN
    cells := by
      rintro c d (hcd | ⟨slot, hc, hd⟩)
      · obtain ⟨x, hx, hstands⟩ := M.cells c d hcd
        refine ⟨x, hm.cells c x hx, ?_⟩
        cases x with
        | inSlot slot => exact hstands
        | closed v => exact ⟨hstands.1, hstands.2.mono hN⟩
      · exact ⟨.inSlot slot, (htidy.opened c slot).mpr hc, hd⟩
    named := fun slot c hmem => by
      obtain ⟨d, hd⟩ := M.cell_of_slot (hbelow _ hmem)
      exact ⟨d, .inr ⟨slot, hmem, hd⟩⟩
    frames := M.frames.imp fun _ _ h => h.mono hN
    globals := fun name => rel_mono (M.globals name) fun _ _ h => h.mono hN
    methods := fun c name => rel_mono (M.methods c name) fun _ _ h => h.mono hN
    fields := fun o name => rel_mono (M.fields o name) fun _ _ h => h.mono hN }

/-! ## The store and the globals -/

theorem insertGlobal (M : Reflects N k m s) (hv : N.Like v v') (name : String) :
    Reflects N k { m with globals := m.globals.insert name v }
      { s with globals := s.globals.insert name v' } :=
  { M with
    tidy := { M.tidy with }
    globals := fun key => by
      change Option.Rel N.Like (m.globals.insert name v)[key]? (s.globals.insert name v')[key]?
      rw [HashMap.getElem?_insert, HashMap.getElem?_insert]
      split
      · exact .some hv
      · exact M.globals key }

theorem setField (M : Reflects N k m s) (hv : N.Like v v') (o : Object) (name : String) :
    Reflects N k { m with store := m.store.setField o name v }
      { s with store := s.store.setField o name v' } :=
  { M with
    tidy := { M.tidy with }
    fields := fun o' key => by
      rw [Store.field?_setField, Store.field?_setField, M.objects]
      split
      · exact .some hv
      · exact M.fields o' key
    objects := by
      simp only [Store.setField, Array.size_modify]
      exact M.objects }

theorem setMethod {g g' : Closure} (M : Reflects N k m s) (hg : N.Agree g g') (c : Class)
    (name : String) :
    Reflects N k { m with store := m.store.setMethod c name g }
      { s with store := s.store.setMethod c name g' } :=
  { M with
    tidy := { M.tidy with }
    methods := fun c' key => by
      rw [Store.method?_setMethod, Store.method?_setMethod, M.classes]
      split
      · exact .some hg
      · exact M.methods c' key
    classes := by
      simp only [Store.setMethod, Array.size_modify]
      exact M.classes }

theorem inherit (M : Reflects N k m s) (parent child : Class) :
    Reflects N k { m with store := m.store.inherit parent child }
      { s with store := s.store.inherit parent child } :=
  { M with
    tidy := { M.tidy with }
    methods := fun c key => by
      rw [Store.method?_inherit, Store.method?_inherit, M.classes]
      split
      · have hparent := M.methods parent key
        generalize m.store.method? parent key = x, s.store.method? parent key = x' at hparent
        cases hparent with
        | none => exact M.methods c key
        | some hf => exact .some hf
      · exact M.methods c key
    classes := by
      simp only [Store.inherit, Array.size_modify]
      exact M.classes }

theorem newClass (M : Reflects N k m s) (name : String) :
    Reflects N k { m with store := (m.store.newClass name).2 }
      { s with store := (s.store.newClass name).2 } :=
  { M with
    tidy := { M.tidy with }
    methods := fun c key => by
      rw [Store.method?_newClass, Store.method?_newClass]
      exact M.methods c key
    classes := by simp only [Store.newClass, Array.size_push, M.classes] }

theorem newObject (M : Reflects N k m s) (c : Class) :
    Reflects N k { m with store := (m.store.newObject c).2 }
      { s with store := (s.store.newObject c).2 } :=
  { M with
    tidy := { M.tidy with }
    fields := fun o key => by
      rw [Store.field?_newObject, Store.field?_newObject]
      exact M.fields o key
    objects := by simp only [Store.newObject, Array.size_push, M.objects] }

theorem newId (M : Reflects N k m s) :
    Reflects N k { m with store := { m.store with nextId := m.store.nextId + 1 } }
      { s with store := { s.store with nextId := s.store.nextId + 1 } } :=
  { M with
    tidy := { M.tidy with }
    nextId := congrArg (· + 1) M.nextId }

/-! ## Calls and the console -/

theorem setFrames {fs fs' : List Frame} (M : Reflects N k m s) (hfs : List.Forall₂ N.SameCall fs fs') :
    Reflects N k { m with frames := fs } { s with frames := fs' } :=
  { M with
    tidy := { M.tidy with }
    frames := hfs }

theorem goto (M : Reflects N k m s) (p : Nat) : Reflects N k (m.goto p) (s.goto p) := by
  have hframes := M.frames
  rw [Machine.goto, CellMachine.goto]
  refine M.setFrames ?_
  generalize m.frames = fs, s.frames = fs' at hframes
  cases hframes with
  | nil => exact .nil
  | cons hf hfs => exact .cons ⟨hf.closure, rfl, hf.base⟩ hfs

theorem setConsole (M : Reflects N k m s) {console console' : Console} (h : console' = console) :
    Reflects N k { m with console } { s with console := console' } :=
  { M with
    tidy := { M.tidy with }
    console := h }

end Reflects

end LoxMachine
