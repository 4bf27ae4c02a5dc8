import LoxMachine.Proofs.Machine.Effect
import LoxMachine.Proofs.Twin.World

/-!
# Twin stores

What the changes of stores and globals do to two machines that are the same up to a bond. Something
new is new on both sides, so that the bond can be extended by it (`Heaps.make`); all variables that are
captured in the same slot can be taken for the same (`Heaps.share`), and are still so when they are
closed (`Heaps.closed`).
-/

namespace LoxMachine

open Std (HashMap)
open Machine

/-! ## Captured variables -/

/-- Open cells are those that are listed, one for each slot. -/
structure Machine.Tidy (m : Machine) : Prop where
  opened : ∀ c slot, m.store.cells[c]? = some (.inSlot slot) ↔ (slot, c) ∈ m.openCells
  descending : Descending m.openCells

section Tidy

variable {m m' : Machine} {f : Frame} {c c' slot : Nat}

/-- One slot has one open cell. -/
theorem Machine.Tidy.unique (h : m.Tidy) (hc : (slot, c) ∈ m.openCells) (hc' : (slot, c') ∈ m.openCells) :
    c = c' := by
  have hpairs : m.openCells.Pairwise fun a b => b.1 < a.1 := h.descending
  generalize m.openCells = l at hpairs hc hc'
  induction hpairs with
  | nil => cases hc
  | cons hy _ ih =>
      rcases List.mem_cons.mp hc with rfl | hrest
      · rcases List.mem_cons.mp hc' with heq | hrest'
        · exact (Prod.mk.inj heq).2.symm
        · exact absurd (hy _ hrest') (Nat.lt_irrefl _)
      · rcases List.mem_cons.mp hc' with rfl | hrest'
        · exact absurd (hy _ hrest) (Nat.lt_irrefl _)
        · exact ih hrest hrest'

/-- The machine with more cells. -/
structure Machine.Grows (m m' : Machine) : Prop where
  eq : m' = { m with store := { m.store with cells := m'.store.cells }, openCells := m'.openCells }
  cells : ∀ (c : Nat) (x : Cell), m.store.cells[c]? = some x → m'.store.cells[c]? = some x

theorem Machine.Grows.trans {m'' : Machine} (h : m.Grows m') (h' : m'.Grows m'') : m.Grows m'' where
  eq := by rw [h'.eq, h.eq]
  cells c x hx := h'.cells c x (h.cells c x hx)

theorem Machine.Tidy.captured (h : m.Tidy) (slot : Nat) :
    (m.captured slot).2.Tidy ∧ m.Grows (m.captured slot).2 ∧
      (slot, (m.captured slot).1) ∈ (m.captured slot).2.openCells := by
  rw [Machine.captured]
  cases hlookup : m.openCells.lookup slot with
  | some cell => exact ⟨h, ⟨rfl, fun _ _ => id⟩, mem_of_lookup hlookup⟩
  | none =>
      have hnew : ∀ c, (slot, c) ∉ m.openCells := fun c => not_mem_of_lookup hlookup
      refine ⟨⟨fun c s => ?_, h.descending.insertCell hnew⟩, ⟨rfl, fun c x hx => ?_⟩,
        mem_insertCell.mpr (.inl rfl)⟩
      · rw [mem_insertCell, ← h.opened, Array.getElem?_push]
        split
        · subst c
          simp [eq_comm]
        · simp [*]
      · have hlt := (Array.getElem?_eq_some_iff.mp hx).1
        rwa [Array.getElem?_push_lt hlt, ← Array.getElem?_eq_getElem hlt]

/-- The cell that a capture leads to. -/
def Frame.Leads (f : Frame) (m : Machine) (capture : Capture) (c : Nat) : Prop :=
  if capture.fromLocal then (f.base + capture.index, c) ∈ m.openCells
  else f.closure.cells[capture.index]? = some c

theorem Machine.Captures.tidy {cs : List Capture} {cells : List Nat} (h : Captures f cs m cells m')
    (hm : m.Tidy) : m'.Tidy ∧ m.Grows m' ∧ List.Forall₂ (f.Leads m') cs cells := by
  induction h with
  | nil => exact ⟨hm, ⟨rfl, fun _ _ => id⟩, .nil⟩
  | @«local» index _ m _ m' _ ih =>
      obtain ⟨htidy, hgrows, hmem⟩ := hm.captured (f.base + index)
      obtain ⟨htidy', hgrows', hleads⟩ := ih htidy
      refine ⟨htidy', hgrows.trans hgrows', .cons ?_ hleads⟩
      rw [Frame.Leads, if_pos rfl, ← htidy'.opened]
      exact hgrows'.cells _ _ ((htidy.opened _ _).mpr hmem)
  | outer hcell _ ih =>
      obtain ⟨htidy', hgrows', hleads⟩ := ih hm
      exact ⟨htidy', hgrows', .cons hcell hleads⟩

/-- What closing makes of a cell. -/
def Machine.shut (m : Machine) (slot : Nat) : Cell → Cell
  | .inSlot s => if slot ≤ s then (atSlot? m.values s).elim (.inSlot s) .closed else .inSlot s
  | .closed v => .closed v

theorem Machine.Tidy.cell_closed (h : m.Tidy) {x : Cell} (hx : m.store.cells[c]? = some x) :
    (m.closed slot).store.cells[c]? = some (m.shut slot x) := by
  have hcells : (m.closed slot).store.cells =
      (closeCells m.stack (m.openCells.takeWhile (slot ≤ ·.1)) m.store).cells := rfl
  have hmem (s : Nat) : (s, c) ∈ m.openCells.takeWhile (slot ≤ ·.1) ↔
      m.store.cells[c]? = some (.inSlot s) ∧ slot ≤ s := by
    rw [h.descending.mem_takeWhile, h.opened]
  rw [hcells]
  cases x with
  | closed v =>
      have hnot : ∀ s, (s, c) ∉ m.openCells.takeWhile (slot ≤ ·.1) := fun s hs =>
        nomatch hx.symm.trans ((hmem s).mp hs).1
      rw [shut, closeCells_of_not_mem hnot, hx]
  | inSlot s =>
      by_cases hle : slot ≤ s
      · have honly : ∀ s', (s', c) ∈ m.openCells.takeWhile (slot ≤ ·.1) → s' = s := by
          intro s' hs'
          exact (Cell.inSlot.inj (Option.some.inj (hx.symm.trans ((hmem s').mp hs').1))).symm
        rw [shut, if_pos hle, ← getElem?_stack]
        cases hv : m.stack[s]? with
        | none => rw [closeCells_of_none honly hv, hx, Option.elim_none]
        | some v =>
            exact closeCells_of_mem ((hmem s).mpr ⟨hx, hle⟩) honly hv
              (Array.getElem?_eq_some_iff.mp hx).1
      · have hnot : ∀ s', (s', c) ∉ m.openCells.takeWhile (slot ≤ ·.1) := by
          intro s' hs'
          obtain ⟨hs', hle'⟩ := (hmem s').mp hs'
          obtain rfl := Cell.inSlot.inj (Option.some.inj (hx.symm.trans hs'))
          exact hle hle'
        rw [shut, if_neg hle, closeCells_of_not_mem hnot, hx]

end Tidy

/-! ## Changes on both sides -/

section Changes

variable {S : Scene} {n : Nat} {B : Bond} {m m' m₁ m₁' : Machine} {v v' : Value}

def Bond.with (B : Bond) (v v' : Value) : Bond :=
  { B with made := fun u u' => B.made u u' ∨ u = v ∧ u' = v' }

theorem Bond.le_with (B : Bond) (v v' : Value) : B.Le (B.with v v') :=
  ⟨fun _ _ => .inl, fun _ _ => id⟩

/-- All variables captured in the same slot. -/
def Bond.sharing (B : Bond) (m m' : Machine) : Bond :=
  { B with
    cell := fun c c' => B.cell c c' ∨
      ∃ slot, 0 < slot ∧ (slot, c) ∈ m.openCells ∧ (slot, c') ∈ m'.openCells }

theorem Bond.le_sharing (B : Bond) (m m' : Machine) : B.Le (B.sharing m m') :=
  ⟨fun _ _ => id, fun _ _ => .inl⟩

theorem rel_mono {α β : Type} {R R' : α → β → Prop} {x : Option α} {y : Option β}
    (h : Option.Rel R x y) (hR : ∀ a b, R a b → R' a b) : Option.Rel R' x y := by
  cases h with
  | none => exact .none
  | some h => exact .some (hR _ _ h)

/-- The bond may grow as long as it stays one to one. -/
theorem Heaps.bind {B' : Bond} (h : Heaps S n B m m') (hB : B.Le B')
    (hlinked : ∀ v v', B'.made v v' → B.made v v' ∨ B'.Linked S n v v')
    (hknown : ∀ v v', B'.made v v' → m.Knows v ∧ m'.Knows v')
    (hsingle : ∀ v v' u u', B'.made v v' → B'.made u u' → (v = u ↔ v' = u'))
    (hcells : ∀ c c', B'.cell c c' → ∃ x x', m.store.cells[c]? = some x ∧
      m'.store.cells[c']? = some x' ∧ B'.TwinCell x x')
    (hsingleCell : ∀ c c' d d', B'.cell c c' → B'.cell d d' → (c = d ↔ c' = d')) :
    Heaps S n B' m m' where
  left := h.left
  right := h.right
  linked v v' hv := (hlinked v v' hv).elim (fun hv => (h.linked v v' hv).mono hB) id
  known := hknown
  single := hsingle
  cells := hcells
  singleCell := hsingleCell
  globals name := rel_mono (h.globals name) fun _ _ hv => hv.mono hB
  methods c name := rel_mono (h.methods c name) fun _ _ hf => hB.made _ _ hf
  classes := h.classes
  fields o name := rel_mono (h.fields o name) fun _ _ hv => hv.mono hB
  objects := h.objects
  natives := h.natives
  time := h.time
  output := h.output
  broken := h.broken

theorem Machine.Knows.succ {s : Store} (h : m.Knows v) (hs : m.store.nextId ≤ s.nextId) :
    Machine.Knows { m with store := s } v :=
  have ⟨i, hi, hlt⟩ := h
  ⟨i, hi, Nat.lt_of_lt_of_le hlt hs⟩

/-- A value with a new number is another one than those known before. -/
theorem Machine.Knows.ne {u : Value} (h : m.Knows v) (hu : u.serial? = some m.store.nextId) : v ≠ u := by
  rintro rfl
  obtain ⟨i, hi, hlt⟩ := h
  obtain rfl := Option.some.inj (hi.symm.trans hu)
  exact Nat.lt_irrefl _ hlt

/-- Both make something. -/
theorem Heaps.make (h : Heaps S n B m m') (hlinked : B.Linked S n v v')
    (hv : v.serial? = some m.store.nextId) (hv' : v'.serial? = some m'.store.nextId) :
    Heaps S n (B.with v v') { m with store := { m.store with nextId := m.store.nextId + 1 } }
      { m' with store := { m'.store with nextId := m'.store.nextId + 1 } } := by
  have hmore : Heaps S n B { m with store := { m.store with nextId := m.store.nextId + 1 } }
      { m' with store := { m'.store with nextId := m'.store.nextId + 1 } } :=
    { h with
      known := fun u u' hu =>
        ⟨(h.known u u' hu).1.succ (Nat.le_succ _), (h.known u u' hu).2.succ (Nat.le_succ _)⟩ }
  refine hmore.bind (B.le_with v v') ?_ ?_ ?_ ?_ h.singleCell
  · rintro u u' (hu | ⟨rfl, rfl⟩)
    · exact .inl hu
    · exact .inr (hlinked.mono (B.le_with _ _))
  · rintro u u' (hu | ⟨rfl, rfl⟩)
    · exact hmore.known u u' hu
    · exact ⟨⟨_, hv, Nat.lt_succ_self _⟩, ⟨_, hv', Nat.lt_succ_self _⟩⟩
  · rintro u u' w w' (hu | ⟨rfl, rfl⟩) (hw | ⟨rfl, rfl⟩)
    · exact h.single u u' w w' hu hw
    · exact iff_of_false ((h.known _ _ hu).1.ne hv) ((h.known _ _ hu).2.ne hv')
    · exact iff_of_false ((h.known _ _ hw).1.ne hv).symm ((h.known _ _ hw).2.ne hv').symm
    · exact iff_of_true rfl rfl
  · intro c c' hc
    obtain ⟨x, x', hx, hx', htwin⟩ := h.cells c c' hc
    exact ⟨x, x', hx, hx', htwin.mono (B.le_with v v')⟩

/-- Both capture some variables. -/
theorem Heaps.grow (h : Heaps S n B m m') (hm : m.Grows m₁) (hm' : m'.Grows m₁') :
    Heaps S n B m₁ m₁' := by
  rw [hm.eq, hm'.eq]
  exact { h with
    cells := fun c c' hc =>
      have ⟨x, x', hx, hx', htwin⟩ := h.cells c c' hc
      ⟨x, x', hm.cells c x hx, hm'.cells c' x' hx', htwin⟩ }

/-- Variables captured in the same slot are the same. -/
theorem Heaps.share (h : Heaps S n B m m') (hm : m.Tidy) (hm' : m'.Tidy) :
    Heaps S n (B.sharing m m') m m' := by
  -- A cell of the bond that is open on the one side is open on the other, in the same slot.
  have hopen {c c' slot : Nat} (hc : B.cell c c') :
      ((slot, c) ∈ m.openCells ↔ (slot, c') ∈ m'.openCells) := by
    obtain ⟨x, x', hx, hx', htwin⟩ := h.cells c c' hc
    rw [← hm.opened, ← hm'.opened, hx, hx']
    cases htwin <;> simp
  refine h.bind (B.le_sharing m m') (fun _ _ => .inl) h.known h.single ?_ ?_
  · rintro c c' (hc | ⟨slot, hpos, hc, hc'⟩)
    · obtain ⟨x, x', hx, hx', htwin⟩ := h.cells c c' hc
      exact ⟨x, x', hx, hx', htwin.mono (B.le_sharing m m')⟩
    · exact ⟨_, _, (hm.opened _ _).mpr hc, (hm'.opened _ _).mpr hc', .inSlot hpos⟩
  · rintro c c' d d' (hc | ⟨slot, -, hc, hc'⟩) (hd | ⟨slot', -, hd, hd'⟩)
    · exact h.singleCell c c' d d' hc hd
    · constructor
      · rintro rfl
        exact hm'.unique ((hopen hc).mp hd) hd'
      · rintro rfl
        exact hm.unique ((hopen hc).mpr hd') hd
    · constructor
      · rintro rfl
        exact hm'.unique hc' ((hopen hd).mp hc)
      · rintro rfl
        exact hm.unique hc ((hopen hd).mpr hc')
    · have hslot {s s' : Nat} {x : Machine} {e : Nat} (hx : x.Tidy) (h : (s, e) ∈ x.openCells)
          (h' : (s', e) ∈ x.openCells) : s = s' :=
        Cell.inSlot.inj (Option.some.inj (((hx.opened _ _).mpr h).symm.trans ((hx.opened _ _).mpr h')))
      constructor
      · rintro rfl
        obtain rfl := hslot hm hc hd
        exact hm'.unique hc' hd'
      · rintro rfl
        obtain rfl := hslot hm' hc' hd'
        exact hm.unique hc hd

/-- Both close the variables from a slot on. -/
theorem Heaps.closed (h : Heaps S n B m m') (hm : m.Tidy) (hm' : m'.Tidy)
    (hvalues : B.Stacks m.values m'.values) (slot : Nat) :
    Heaps S n B (m.closed slot) (m'.closed slot) := by
  have hstore (m : Machine) : (m.closed slot).store =
      { m.store with cells := (m.closed slot).store.cells } := closeCells_eq _ _ _
  have hsame : Heaps S n B { m with store := { m.store with cells := (m.closed slot).store.cells } }
      { m' with store := { m'.store with cells := (m'.closed slot).store.cells } } := by
    refine { h with cells := fun c c' hc => ?_ }
    obtain ⟨x, x', hx, hx', htwin⟩ := h.cells c c' hc
    refine ⟨_, _, hm.cell_closed hx, hm'.cell_closed hx', ?_⟩
    cases htwin with
    | closed hv => exact .closed hv
    | @inSlot s hpos =>
        rw [shut, shut]
        by_cases hle : slot ≤ s
        · rw [if_pos hle, if_pos hle]
          by_cases hlt : s < m.values.length
          · obtain ⟨v, v', hv, hv', hvv⟩ := hvalues.atSlot? hpos hlt
            rw [hv, hv']
            exact .closed hvv
          · rw [atSlot?_eq_none.mpr (Nat.le_of_not_lt hlt),
              atSlot?_eq_none.mpr (hvalues.length_eq ▸ Nat.le_of_not_lt hlt)]
            exact .inSlot hpos
        · rw [if_neg hle, if_neg hle]
          exact .inSlot hpos
  rw [← hstore, ← hstore] at hsame
  exact { hsame with }

/-- Both assign to a captured variable that is not in a slot any more. -/
theorem Heaps.setCell {c c' : Nat} (h : Heaps S n B m m') (hc : B.cell c c') (hv : B.Twin v v') :
    Heaps S n B { m with store := m.store.setCell c v } { m' with store := m'.store.setCell c' v' } :=
  { h with
    cells := fun d d' hd => by
      obtain ⟨x, x', hx, hx', htwin⟩ := h.cells d d' hd
      have hsame := h.singleCell c c' d d' hc hd
      by_cases heq : c = d
      · subst heq
        obtain rfl := hsame.mp rfl
        exact ⟨_, _, Array.getElem?_setIfInBounds_self_of_lt (Array.getElem?_eq_some_iff.mp hx).1,
          Array.getElem?_setIfInBounds_self_of_lt (Array.getElem?_eq_some_iff.mp hx').1, .closed hv⟩
      · exact ⟨x, x', (Array.getElem?_setIfInBounds_ne heq).trans hx,
          (Array.getElem?_setIfInBounds_ne (mt hsame.mpr heq)).trans hx', htwin⟩ }

theorem Heaps.insertGlobal (h : Heaps S n B m m') (hv : B.Twin v v') (name : String) :
    Heaps S n B { m with globals := m.globals.insert name v }
      { m' with globals := m'.globals.insert name v' } :=
  { h with
    globals := fun key => by
      change Option.Rel B.Twin (m.globals.insert name v)[key]? (m'.globals.insert name v')[key]?
      rw [HashMap.getElem?_insert, HashMap.getElem?_insert]
      split
      · exact .some hv
      · exact h.globals key }

theorem Heaps.setField (h : Heaps S n B m m') (hv : B.Twin v v') (o : Object) (name : String) :
    Heaps S n B { m with store := m.store.setField o name v }
      { m' with store := m'.store.setField o name v' } :=
  { h with
    fields := fun o' key => by
      rw [Store.field?_setField, Store.field?_setField, h.objects]
      split
      · exact .some hv
      · exact h.fields o' key
    objects := by
      simp only [Store.setField, Array.size_modify]
      exact h.objects }

theorem Heaps.setMethod {g g' : Closure} (h : Heaps S n B m m') (hg : B.made (.closure g) (.closure g'))
    (c : Class) (name : String) :
    Heaps S n B { m with store := m.store.setMethod c name g }
      { m' with store := m'.store.setMethod c name g' } :=
  { h with
    methods := fun c' key => by
      rw [Store.method?_setMethod, Store.method?_setMethod, h.classes]
      split
      · exact .some hg
      · exact h.methods c' key
    classes := by
      simp only [Store.setMethod, Array.size_modify]
      exact h.classes }

theorem Heaps.inherit (h : Heaps S n B m m') (parent child : Class) :
    Heaps S n B { m with store := m.store.inherit parent child }
      { m' with store := m'.store.inherit parent child } :=
  { h with
    methods := fun c key => by
      rw [Store.method?_inherit, Store.method?_inherit, h.classes]
      split
      · have hparent := h.methods parent key
        generalize m.store.method? parent key = x, m'.store.method? parent key = x' at hparent
        cases hparent with
        | none => exact h.methods c key
        | some hf => exact .some hf
      · exact h.methods c key
    classes := by
      simp only [Store.inherit, Array.size_modify]
      exact h.classes }

theorem Heaps.newClass (h : Heaps S n B m m') (name : String) :
    Heaps S n B { m with store := (m.store.newClass name).2 }
      { m' with store := (m'.store.newClass name).2 } :=
  { h with
    methods := fun c key => by
      rw [Store.method?_newClass, Store.method?_newClass]
      exact h.methods c key
    classes := by
      simp only [Store.newClass, Array.size_push, h.classes] }

theorem Heaps.newObject (h : Heaps S n B m m') (c : Class) :
    Heaps S n B { m with store := (m.store.newObject c).2 }
      { m' with store := (m'.store.newObject c).2 } :=
  { h with
    fields := fun o key => by
      rw [Store.field?_newObject, Store.field?_newObject]
      exact h.fields o key
    objects := by
      simp only [Store.newObject, Array.size_push, h.objects] }

end Changes

end LoxMachine
