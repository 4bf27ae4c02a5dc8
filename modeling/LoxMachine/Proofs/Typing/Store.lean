import LoxMachine.Proofs.Machine.Store
import LoxMachine.Proofs.Typing.World

/-!
# Changes of a steady store

Each operation on the store, the globals and the open cells keeps them steady. Where a closure gets its
number (`World.numbering`) or a class its superclass (`World.inheriting`), more is known of the world.
-/

namespace LoxMachine

open Std (HashMap)
open Syntax

variable {w : World} {n : Nat} {Γ : List Slot} {s : Store} {globals : HashMap String Value}
  {openCells : List (Nat × Nat)} {x : Option String}

namespace Steady

/-! ## Globals, methods and fields -/

theorem insertGlobal (h : Steady w n Γ none s globals openCells) (name : String) {v : Value}
    (hv : x ≠ some name → v.Ok w n) : Steady w n Γ x s (globals.insert name v) openCells :=
  { h with
    globals := by
      intro name' u hu hx
      rw [HashMap.getElem?_insert] at hu
      split at hu
      · rename_i heq
        obtain rfl := Option.some.inj hu
        exact hv (beq_iff_eq.mp heq ▸ hx)
      · exact h.globals name' u hu nofun }

/-- What nobody else had is a value like any other. -/
theorem unexcuse (h : Steady w n Γ x s globals openCells)
    (hx : ∀ (name : String) (v : Value), x = some name → globals[name]? = some v → v.Ok w n) :
    Steady w n Γ none s globals openCells :=
  { h with
    globals := by
      intro name v hv _
      by_cases heq : x = some name
      · exact hx name v heq hv
      · exact h.globals name v hv heq }

theorem newId (h : Steady w n Γ x s globals openCells) :
    Steady w n Γ x { s with nextId := s.nextId + 1 } globals openCells :=
  { h with ids := Nat.le_succ_of_le h.ids }

theorem newClass (h : Steady w n Γ x s globals openCells) (name : String) :
    Steady w n Γ x (s.newClass name).2 globals openCells :=
  { h with
    methods := by
      intro c key f hf
      rw [Store.method?_newClass] at hf
      exact h.methods c key f hf
    classes := Nat.le_trans h.classes (by simp [Store.newClass])
    ordered := { h.ordered with
      unborn := fun id hid => h.ordered.unborn id (Nat.le_trans (by simp [Store.newClass]) hid) } }

theorem newObject (h : Steady w n Γ x s globals openCells) (c : Class) :
    Steady w n Γ x (s.newObject c).2 globals openCells :=
  { h with
    fields := by
      intro o key v hv
      rw [Store.field?_newObject] at hv
      exact h.fields o key v hv }

theorem setMethod (h : Steady w n Γ x s globals openCells) (c : Class) (name : String) {f : Closure}
    (hf : f.Ok w n (· = methodKind name)) : Steady w n Γ x (s.setMethod c name f) globals openCells :=
  { h with
    methods := by
      intro c' key g hg
      rw [Store.method?_setMethod] at hg
      split at hg
      · rename_i heq
        obtain rfl := Option.some.inj hg
        exact heq.2.2 ▸ hf
      · exact h.methods c' key g hg
    classes := by rw [Store.setMethod, Array.size_modify]; exact h.classes
    ordered := by rw [Store.setMethod, Array.size_modify]; exact h.ordered }

theorem inherit (h : Steady w n Γ x s globals openCells) (parent child : Class) :
    Steady w n Γ x (s.inherit parent child) globals openCells :=
  { h with
    methods := by
      intro c key f hf
      rw [Store.method?_inherit] at hf
      split at hf
      · rcases Option.or_eq_some_iff.mp hf with hf | ⟨-, hf⟩
        · exact h.methods parent key f hf
        · exact h.methods c key f hf
      · exact h.methods c key f hf
    classes := by rw [Store.inherit, Array.size_modify]; exact h.classes
    ordered := by rw [Store.inherit, Array.size_modify]; exact h.ordered }

theorem setField (h : Steady w n Γ x s globals openCells) (o : Object) (name : String) {v : Value}
    (hv : v.Ok w n) : Steady w n Γ x (s.setField o name v) globals openCells :=
  { h with
    fields := by
      intro o' key u hu
      rw [Store.field?_setField] at hu
      split at hu
      · obtain rfl := Option.some.inj hu
        exact hv
      · exact h.fields o' key u hu }

/-- What a function of the host answers is fine if its arguments are. -/
theorem apply_ok (h : Steady w n Γ x s globals openCells) (native : Native) (time : Number)
    {arguments : List Value} (hargs : ∀ v ∈ arguments, v.Ok w n) :
    (s.apply native time arguments).Ok w n := by
  rw [Store.apply]
  split
  · rename_i f hf
    rcases h.natives _ f hf time arguments with hplain | hmem
    · exact hplain.ok
    · exact hargs _ hmem
  · trivial

/-! ## Cells -/

theorem setCell (h : Steady w n Γ x s globals openCells) {c : Nat} {k : Kind} {v v' : Value}
    (hc : s.cells[c]? = some (.closed v')) (hk : w.kinds[c]? = some k) (hv : Fits w n v k) :
    Steady w n Γ x (s.setCell c v) globals openCells := by
  have hlt := (Array.getElem?_eq_some_iff.mp hc).1
  have hcell (c' : Nat) : (s.setCell c v).cells[c']? =
      if c = c' then some (.closed v) else s.cells[c']? := by
    by_cases hcc : c = c'
    · rw [if_pos hcc, ← hcc]
      exact Array.getElem?_setIfInBounds_self_of_lt hlt
    · rw [if_neg hcc]
      exact Array.getElem?_setIfInBounds_ne hcc
  refine { h with
    size := h.size.trans Array.size_setIfInBounds.symm
    closed := ?_
    opened := ?_ }
  · intro c' u k' hu hk'
    rw [hcell] at hu
    split at hu
    · rename_i heq
      subst heq
      obtain ⟨rfl⟩ := Option.some.inj hu
      obtain rfl := Option.some.inj (hk.symm.trans hk')
      exact hv
    · exact h.closed c' u k' hu hk'
  · intro c' slot
    rw [hcell, ← h.opened]
    split
    · rename_i heq
      subst heq
      rw [hc]
      simp
    · rfl

theorem kind_of_mem (h : Steady w n Γ x s globals openCells) {slot c : Nat} {k : Kind}
    (hmem : (slot, c) ∈ openCells) (hslot : atSlot? Γ slot = some ⟨k, true⟩) :
    w.kinds[c]? = some k := by
  obtain ⟨k', hk, hslot'⟩ := h.shared slot c hmem
  obtain ⟨rfl, -⟩ := Slot.mk.inj (Option.some.inj (hslot.symm.trans hslot'))
  exact hk

/-- Capturing makes a cell of the kind of the slot, or finds one. -/
theorem captured {m : Machine} (h : Steady w n Γ x m.store m.globals m.openCells) {slot : Nat}
    {k : Kind} (hslot : atSlot? Γ slot = some ⟨k, true⟩) :
    ∃ kinds, w.Le { w with kinds } ∧ kinds[(m.captured slot).1]? = some k ∧
      Steady { w with kinds } n Γ x (m.captured slot).2.store m.globals
        (m.captured slot).2.openCells := by
  rw [Machine.captured]
  split
  · rename_i c hc
    exact ⟨w.kinds, .refl w, h.kind_of_mem (Machine.mem_of_lookup hc) hslot, h⟩
  · rename_i hnone
    have hle : w.Le { w with kinds := w.kinds.push k } := by
      refine ⟨fun _ _ => id, fun c k' hk => ?_, Nat.le_refl _, Nat.le_refl _, fun _ _ => rfl,
        fun _ _ => rfl⟩
      rw [Array.getElem?_push_lt (Array.getElem?_eq_some_iff.mp hk).1]
      exact (Array.getElem?_eq_getElem _).symm.trans hk
    refine ⟨_, hle, ?_, ?_⟩
    · rw [← h.size]
      exact Array.getElem?_push_size
    · have hcell (c : Nat) : (m.store.cells.push (.inSlot slot))[c]? =
          if c = m.store.cells.size then some (.inSlot slot) else m.store.cells[c]? :=
        Array.getElem?_push
      refine {
        chunks := h.chunks
        globals := fun name v hv hx => (h.globals name v hv hx).mono hle
        methods := fun c name f hf => (h.methods c name f hf).mono hle
        fields := fun o name v hv => (h.fields o name v hv).mono hle
        natives := h.natives
        size := by simp [h.size]
        closed := ?_
        opened := ?_
        shared := ?_
        descending := h.descending.insertCell fun c => Machine.not_mem_of_lookup hnone
        ids := h.ids
        classes := h.classes
        ordered := h.ordered }
      · intro c v k' hv hk'
        change (m.store.cells.push _)[c]? = _ at hv
        rw [hcell] at hv
        split at hv
        · cases hv
        · rename_i hne
          refine (h.closed c v k' hv ?_).mono hle
          change (w.kinds.push k)[c]? = _ at hk'
          rwa [Array.getElem?_push, if_neg (h.size ▸ hne)] at hk'
      · intro c slot'
        change (m.store.cells.push _)[c]? = _ ↔ _
        rw [hcell, Machine.mem_insertCell, ← h.opened, Prod.mk.injEq]
        split
        · rename_i heq
          simp [heq, eq_comm]
        · rename_i hne
          simp [hne]
      · intro slot' c hmem
        rcases Machine.mem_insertCell.mp hmem with heq | hmem
        · obtain ⟨rfl, rfl⟩ := Prod.mk.inj heq
          refine ⟨k, ?_, hslot⟩
          rw [← h.size]
          exact Array.getElem?_push_size
        · obtain ⟨k', hk', hslot'⟩ := h.shared slot' c hmem
          exact ⟨k', hle.kinds _ _ hk', hslot'⟩

/-- A cell is open in one slot. -/
theorem slot_unique {s : Store} {slot slot' c : Nat} (h : Steady w n Γ x s globals openCells)
    (hmem : (slot, c) ∈ openCells) (hmem' : (slot', c) ∈ openCells) : slot' = slot := by
  have := ((h.opened c slot).mpr hmem).symm.trans ((h.opened c slot').mpr hmem')
  cases this
  rfl

/-- When the slots on top are closed, the cells of these slots get the values in them, and other cells stay
as they are. -/
theorem cells_closed {m : Machine} {top : List Slot}
    (h : Steady w n (top ++ Γ) x m.store m.globals m.openCells) (hvs : Holds w n m.values (top ++ Γ)) (c : Nat) :
    (∃ slot, Γ.length ≤ slot ∧ (slot, c) ∈ m.openCells ∧ ∃ k v, w.kinds[c]? = some k ∧ Fits w n v k ∧
      (m.closed Γ.length).store.cells[c]? = some (.closed v)) ∨
    (∀ slot, Γ.length ≤ slot → (slot, c) ∉ m.openCells) ∧
      (m.closed Γ.length).store.cells[c]? = m.store.cells[c]? := by
  by_cases hex : ∃ slot, Γ.length ≤ slot ∧ (slot, c) ∈ m.openCells
  · obtain ⟨slot, hle, hmem⟩ := hex
    obtain ⟨k, hk, hs⟩ := h.shared slot c hmem
    obtain ⟨v, hv, hfits⟩ := forall₂_atSlot? hvs hs
    refine .inl ⟨slot, hle, hmem, k, v, hk, hfits, ?_⟩
    refine Machine.closeCells_of_mem (h.descending.mem_takeWhile.mpr ⟨hmem, hle⟩) ?_ ?_ ?_
    · exact fun slot' hmem' => h.slot_unique hmem (h.descending.mem_takeWhile.mp hmem').1
    · rw [Machine.getElem?_stack, hv]
    · exact (Array.getElem?_eq_some_iff.mp ((h.opened c slot).mpr hmem)).1
  · have hnone : ∀ slot, Γ.length ≤ slot → (slot, c) ∉ m.openCells := fun slot hle hmem =>
      hex ⟨slot, hle, hmem⟩
    refine .inr ⟨hnone, Machine.closeCells_of_not_mem fun slot hmem => ?_⟩
    obtain ⟨hmem, hle⟩ := h.descending.mem_takeWhile.mp hmem
    exact hnone slot hle hmem

/-- Closing the cells of the top slots frees these slots. -/
theorem close {m : Machine} {top : List Slot}
    (h : Steady w n (top ++ Γ) x m.store m.globals m.openCells) (hvs : Holds w n m.values (top ++ Γ)) :
    Steady w n Γ x (m.closed Γ.length).store m.globals (m.closed Γ.length).openCells := by
  have hstore : (m.closed Γ.length).store =
      { m.store with cells := (m.closed Γ.length).store.cells } :=
    Machine.closeCells_eq _ _ _
  have hmethods : (m.closed Γ.length).store.method? = m.store.method? := by
    rw [hstore]
    rfl
  have hfields : (m.closed Γ.length).store.field? = m.store.field? := by
    rw [hstore]
    rfl
  refine {
    chunks := by rw [hstore]; exact h.chunks
    globals := h.globals
    methods := by rw [hmethods]; exact h.methods
    fields := by rw [hfields]; exact h.fields
    natives := by rw [hstore]; exact h.natives
    size := h.size.trans Machine.size_closeCells.symm
    closed := ?_
    opened := ?_
    shared := ?_
    descending := h.descending.dropWhile
    ids := by rw [hstore]; exact h.ids
    classes := by rw [hstore]; exact h.classes
    ordered := by rw [hstore]; exact h.ordered }
  · intro c v k hv hk
    rcases h.cells_closed hvs c with ⟨_, _, _, k', v', hk', hfits, hv'⟩ | ⟨_, hsame⟩
    · obtain rfl := Option.some.inj (hk.symm.trans hk')
      cases hv.symm.trans hv'
      exact hfits
    · exact h.closed c v k (hsame ▸ hv) hk
  · intro c slot
    refine Iff.trans ?_ h.descending.mem_dropWhile.symm
    rcases h.cells_closed hvs c with ⟨slot', hle, hmem, _, v, _, _, hv⟩ | ⟨hnone, hsame⟩
    · rw [hv]
      simp only [Option.some.injEq, reduceCtorEq, false_iff, not_and, Nat.not_lt]
      intro hmem'
      rw [h.slot_unique hmem hmem']
      exact hle
    · rw [hsame, h.opened]
      constructor
      · intro hmem
        exact ⟨hmem, Nat.lt_of_not_le fun hle => hnone slot hle hmem⟩
      · exact And.left
  · intro slot c hmem
    obtain ⟨hmem, hlt⟩ := h.descending.mem_dropWhile.mp hmem
    obtain ⟨k, hk, hs⟩ := h.shared slot c hmem
    exact ⟨k, hk, (atSlot?_append_right top Γ hlt).symm.trans hs⟩

/-- All open cells are in slots that have values. -/
theorem lt_of_mem (h : Steady w n Γ x s globals openCells) {x : Nat × Nat} (hx : x ∈ openCells) :
    x.1 < Γ.length := by
  obtain ⟨k, -, hs⟩ := h.shared x.1 x.2 hx
  exact lt_of_atSlot? hs

end Steady

/-! ## A new closure -/

/-- A number has been given to a closure, which belongs to that class. -/
def World.numbering (w : World) (id : Nat) (home : Option Class) : World :=
  { w with lineage := { w.lineage with home := Lineage.set w.lineage.home id home }, ids := id + 1 }

section Numbering

variable {id size : Nat} {home : Option Class}

theorem World.le_numbering (hids : w.ids ≤ id) : w.Le (w.numbering id home) := by
  have hhome (i : Nat) (hi : i < w.ids) : (w.numbering id home).lineage.home i = w.lineage.home i :=
    Lineage.set_ne _ _ (Nat.ne_of_lt (Nat.lt_of_lt_of_le hi hids))
  refine ⟨fun _ _ => (·), fun _ _ => (·), Nat.le_succ_of_le hids, Nat.le_refl _, hhome, fun i hi => ?_⟩
  rw [Lineage.parentOf, hhome i hi]
  rfl

theorem World.ordered_numbering (hold : w.lineage.Ordered w.ids w.classes size) (hids : w.ids ≤ id)
    (hhome : ∀ c, home = some c → c.id < w.classes) :
    (w.numbering id home).lineage.Ordered (id + 1) w.classes size := by
  refine ⟨hold.older, hold.unborn, fun i c hc => ?_⟩
  by_cases hne : i = id
  · subst hne
    exact ⟨Nat.lt_succ_self _, hhome c ((Lineage.set_self _ _ _).symm.trans hc)⟩
  · have := hold.homes i c ((Lineage.set_ne _ _ hne).symm.trans hc)
    exact ⟨Nat.lt_succ_of_lt (Nat.lt_of_lt_of_le this.1 hids), this.2⟩

end Numbering

/-! ## A class that inherits -/

/-- The newest class has got its superclass, and can inherit no more. -/
def World.inheriting (w : World) (c parent : Class) : World :=
  { w with
    lineage := { w.lineage with parent := Lineage.set w.lineage.parent c.id (some parent) }
    classes := w.classes + 1 }

section Inheriting

variable {c parent : Class} {size i : Nat}

theorem Lineage.after_inherit {m : Machine} {vs : List Value} (h : m.values = .cls c :: .cls parent :: vs) :
    w.lineage.after m .inherit = (w.inheriting c parent).lineage := by
  rw [Lineage.after, h]
  rfl

theorem World.le_inheriting (hold : w.lineage.Ordered w.ids w.classes size) (hid : c.id = w.classes) :
    w.Le (w.inheriting c parent) := by
  refine ⟨fun _ _ => id, fun _ _ => id, Nat.le_refl _, Nat.le_succ _, fun _ _ => rfl, fun id _ => ?_⟩
  change (w.lineage.home id).bind (Lineage.set w.lineage.parent c.id (some parent) ·.id) = _
  rw [Lineage.parentOf]
  cases hc : w.lineage.home id with
  | none => rfl
  | some home => exact Lineage.set_ne _ _ (Nat.ne_of_lt (hid ▸ (hold.homes id home hc).2))

theorem World.ordered_inheriting (hold : w.lineage.Ordered w.ids w.classes size) (hid : c.id = w.classes)
    (hsize : size = w.classes + 1) (hparent : parent.id < w.classes) :
    (w.inheriting c parent).lineage.Ordered w.ids (w.classes + 1) size := by
  have hset : (w.inheriting c parent).lineage.parent c.id = some parent := Lineage.set_self _ _ _
  have hset' {id : Nat} (hne : id ≠ c.id) :
      (w.inheriting c parent).lineage.parent id = w.lineage.parent id := Lineage.set_ne _ _ hne
  refine ⟨fun id p hp => ?_, fun id hle => ⟨(hold.unborn id hle).1, ?_⟩, fun id p hp => ?_⟩
  · by_cases hne : id = c.id
    · subst hne
      obtain rfl := Option.some.inj (hset.symm.trans hp)
      omega
    · have := hold.older id p ((hset' hne).symm.trans hp)
      omega
  · exact (hset' (by omega)).trans (hold.unborn id hle).2
  · have := hold.homes id p hp
    omega

/-- The values that were of the class are known to be it, and the superclass takes the place of both. -/
theorem Steady.inheriting {Δ : List Slot}
    (h : Steady w n (.temp (.own c) :: .temp .any :: (List.replicate i (.temp (.own c)) ++ Δ)) x s globals
      openCells)
    (hid : c.id = w.classes) (hsize : s.methods.size = w.classes + 1) (hparent : parent.id < w.classes) :
    Steady (w.inheriting c parent) n
      (.temp (.is (.cls parent)) :: (List.replicate i (.temp (.is (.cls c))) ++ Δ)) x (s.inherit parent c)
      globals openCells := by
  have hsize' : (s.inherit parent c).methods.size = s.methods.size := by simp [Store.inherit]
  have h' : Steady w n ((.temp (.own c) :: .temp .any :: List.replicate i (.temp (.own c))) ++ Δ) x s globals
      openCells := h
  have hshared : ∀ t ∈ Slot.temp (.own c) :: Slot.temp .any :: List.replicate i (Slot.temp (.own c)),
      t.shared = false := by
    simp +contextual [or_imp, List.mem_replicate]
  have hnew := (h'.replace hshared (.temp (.is (.cls parent)) :: List.replicate i (.temp (.is (.cls c))))).inherit
    parent c
  refine hnew.evolve (World.le_inheriting h.ordered hid) rfl rfl hnew.ids ?_ ?_
  · rw [hsize', hsize]
    exact Nat.le_refl _
  · rw [hsize']
    exact World.ordered_inheriting h.ordered hid hsize hparent

end Inheriting

end LoxMachine
