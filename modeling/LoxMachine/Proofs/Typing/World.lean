import LoxMachine.Proofs.Machine.Cells
import LoxMachine.Proofs.Machine.Lineage
import LoxMachine.Proofs.Typing.Shape

/-!
# Shapes and values

When values, the store and the active calls are as shapes say. Open cells are those of shared slots,
classes inherit from older ones (`Steady`); a call that is suspended goes on safely with the answer
it waits for (`Calls`). Every statement has a number `n`: code reached through values is safe for
`n` instructions.
-/

namespace LoxMachine

open Std (HashMap)
open Syntax

/-- The compiled functions, the kinds of captured variables, cell by cell, and how classes came
about. -/
structure World where
  routines : Array Routine
  kinds : Array Kind
  lineage : Lineage
  /-- How many numbers have been given to closures. -/
  ids : Nat
  /-- How many classes can inherit no more. -/
  classes : Nat

structure World.Le (w w' : World) : Prop where
  routines : ∀ (i : Nat) (r : Routine), w.routines[i]? = some r → w'.routines[i]? = some r
  kinds : ∀ (c : Nat) (k : Kind), w.kinds[c]? = some k → w'.kinds[c]? = some k
  ids : w.ids ≤ w'.ids
  classes : w.classes ≤ w'.classes
  home : ∀ id < w.ids, w'.lineage.home id = w.lineage.home id
  parentOf : ∀ id < w.ids, w'.lineage.parentOf id = w.lineage.parentOf id

theorem World.Le.refl (w : World) : w.Le w :=
  ⟨fun _ _ => id, fun _ _ => id, Nat.le_refl _, Nat.le_refl _, fun _ _ => rfl, fun _ _ => rfl⟩

theorem World.Le.trans {w w' w'' : World} (h : w.Le w') (h' : w'.Le w'') : w.Le w'' where
  routines i r hr := h'.routines i r (h.routines i r hr)
  kinds c k hk := h'.kinds c k (h.kinds c k hk)
  ids := Nat.le_trans h.ids h'.ids
  classes := Nat.le_trans h.classes h'.classes
  home id hid := (h'.home id (Nat.lt_of_lt_of_le hid h.ids)).trans (h.home id hid)
  parentOf id hid :=
    (h'.parentOf id (Nat.lt_of_lt_of_le hid h.ids)).trans (h.parentOf id hid)

/-! ## Values -/

/-- A closure has the code of `G`, and what it brings along is as `E` says. -/
structure Closure.Has (w : World) (c : Closure) (G : Layout) (E : Env) : Prop where
  routine : w.routines[c.function.index]? = some ⟨c.function, G.code, G.kind⟩
  cells : List.Forall₂ (fun cell k => w.kinds[cell]? = some k) c.cells.toList E.cells
  known : c.id < w.ids
  parent : w.lineage.parentOf c.id = E.parent

/-- A closure of some kind that can be called. -/
def Closure.Ok (w : World) (n : Nat) (P : BodyKind → Prop) (c : Closure) : Prop :=
  ∃ G E, c.Has w G E ∧ P G.kind ∧ Enters w.routines (Safe w.routines n) c.function G E

/-- A value that the script may do with as it likes. -/
def Value.Ok (w : World) (n : Nat) : Value → Prop
  | .closure c => c.Ok w n fun kind => ¬ kind.IsMethod
  | .bound _ receiver method => (∃ o, receiver = .object o) ∧ method.Ok w n BodyKind.IsMethod
  | .cls c => c.id < w.classes
  | _ => True

def Fits (w : World) (n : Nat) (v : Value) : Kind → Prop
  | .any => v.Ok w n
  | .is u => v = u ∧ u.Ok w n
  | .own c => v = .cls c
  | .method kind c => ∃ g, v = .closure g ∧ g.Ok w n (· = kind) ∧ w.lineage.home g.id = some c

/-- The values in the slots are of their kinds. -/
def Holds (w : World) (n : Nat) (vs : List Value) (Γ : List Slot) : Prop :=
  List.Forall₂ (fun v s => Fits w n v s.kind) vs Γ

section Mono

variable {w w' : World} {n : Nat} {P Q : BodyKind → Prop}

theorem Closure.Has.mono {c : Closure} {G : Layout} {E : Env} (h : c.Has w G E) (hw : w.Le w') :
    c.Has w' G E where
  routine := hw.routines _ _ h.routine
  cells := h.cells.imp fun _ _ hk => hw.kinds _ _ hk
  known := Nat.lt_of_lt_of_le h.known hw.ids
  parent := (hw.parentOf _ h.known).trans h.parent

theorem Closure.Ok.mono {c : Closure} (h : c.Ok w n P) (hw : w.Le w') : c.Ok w' n P := by
  obtain ⟨G, E, hhas, hP, henters⟩ := h
  exact ⟨G, E, hhas.mono hw, hP,
    henters.mono hw.routines fun _ _ _ _ hsafe => hsafe.extend hw.routines⟩

theorem Closure.Ok.known {c : Closure} (h : c.Ok w n P) : c.id < w.ids :=
  have ⟨_, _, hhas, _⟩ := h
  hhas.known

theorem Closure.Ok.succ {c : Closure} (h : c.Ok w (n + 1) P) : c.Ok w n P := by
  obtain ⟨G, E, hhas, hP, henters⟩ := h
  exact ⟨G, E, hhas, hP, henters.mono (fun _ _ h => h) fun _ _ _ _ hsafe => hsafe.succ⟩

theorem Closure.Ok.imp {c : Closure} (h : c.Ok w n P) (hPQ : ∀ kind, P kind → Q kind) :
    c.Ok w n Q := by
  obtain ⟨G, E, hhas, hP, henters⟩ := h
  exact ⟨G, E, hhas, hPQ _ hP, henters⟩

theorem Value.Ok.mono {v : Value} (h : v.Ok w n) (hw : w.Le w') : v.Ok w' n := by
  cases v with
  | closure c =>
      have hc : c.Ok w n fun kind => ¬ kind.IsMethod := h
      exact hc.mono hw
  | bound id receiver method => exact ⟨h.1, h.2.mono hw⟩
  | cls c => exact Nat.lt_of_lt_of_le h hw.classes
  | _ => trivial

theorem Value.Ok.succ {v : Value} (h : v.Ok w (n + 1)) : v.Ok w n := by
  cases v with
  | closure c =>
      have hc : c.Ok w (n + 1) fun kind => ¬ kind.IsMethod := h
      exact hc.succ
  | bound id receiver method => exact ⟨h.1, h.2.succ⟩
  | cls c => exact h
  | _ => trivial

theorem Value.IsPlain.ok {v : Value} (h : v.IsPlain) : v.Ok w n := by
  cases v <;> trivial

theorem Fits.mono {v : Value} {k : Kind} (h : Fits w n v k) (hw : w.Le w') : Fits w' n v k := by
  cases k with
  | any => exact Value.Ok.mono h hw
  | is u => exact ⟨h.1, h.2.mono hw⟩
  | own c => exact h
  | method kind c =>
      obtain ⟨g, rfl, hg, hhome⟩ := h
      exact ⟨g, rfl, hg.mono hw, (hw.home _ hg.known).trans hhome⟩

theorem Fits.succ {v : Value} {k : Kind} (h : Fits w (n + 1) v k) : Fits w n v k := by
  cases k with
  | any => exact Value.Ok.succ h
  | is u => exact ⟨h.1, h.2.succ⟩
  | own c => exact h
  | method kind c =>
      obtain ⟨g, rfl, hg, hhome⟩ := h
      exact ⟨g, rfl, hg.succ, hhome⟩

theorem Fits.weaken {v : Value} {s t : Slot} (h : Fits w n v s.kind) (hle : s.Le t) :
    Fits w n v t.kind := by
  rcases hle with rfl | ⟨-, hk | ⟨hk, u, hu⟩⟩
  · exact h
  · rw [hk]
    exact h
  · rw [hu] at h
    rw [hk]
    obtain ⟨rfl, hok⟩ := h
    exact hok

variable {vs : List Value} {Γ Δ : List Slot}

theorem Holds.mono (h : Holds w n vs Γ) (hw : w.Le w') : Holds w' n vs Γ :=
  List.Forall₂.imp (fun _ _ hf => hf.mono hw) h

theorem Holds.succ (h : Holds w (n + 1) vs Γ) : Holds w n vs Γ :=
  List.Forall₂.imp (fun _ _ hf => hf.succ) h

theorem Holds.length_eq (h : Holds w n vs Γ) : vs.length = Γ.length :=
  List.Forall₂.length_eq h

theorem Holds.weaken (h : Holds w n vs Γ) (hle : List.Forall₂ Slot.Le Γ Δ) : Holds w n vs Δ := by
  induction h generalizing Δ with
  | nil =>
      cases hle
      exact .nil
  | cons hf _ ih =>
      obtain _ | ⟨hs, hrest⟩ := hle
      exact .cons (hf.weaken hs) (ih hrest)

theorem Holds.split {top : List Slot} (h : Holds w n vs (top ++ Γ)) :
    ∃ ws us, vs = ws ++ us ∧ Holds w n ws top ∧ Holds w n us Γ := by
  refine ⟨vs.take top.length, vs.drop top.length, (List.take_append_drop _ _).symm, ?_, ?_⟩
  · exact List.forall₂_take_append vs top Γ h
  · exact List.forall₂_drop_append vs top Γ h

/-- Values in slots of which nothing else is known are fine. -/
theorem Holds.ok {k : Nat} (h : Holds w n vs (temps k)) : ∀ v ∈ vs, v.Ok w n := by
  induction k generalizing vs with
  | zero =>
      cases h
      exact fun _ hv => absurd hv List.not_mem_nil
  | succ k ih =>
      obtain ⟨v, us, hv, hus, rfl⟩ := List.forall₂_cons_right_iff.mp h
      exact List.forall_mem_cons.mpr ⟨hv, ih hus⟩

/-- Values that are fine anyway are in slots of which nothing is known. -/
theorem Holds.of_any (h : ∀ v ∈ vs, v.Ok w n) (hlen : vs.length = Γ.length)
    (hany : ∀ s ∈ Γ, s.kind = .any) : Holds w n vs Γ := by
  induction vs generalizing Γ with
  | nil =>
      obtain rfl := List.length_eq_zero_iff.mp hlen.symm
      exact .nil
  | cons v vs ih =>
      obtain _ | ⟨s, Γ⟩ := Γ
      · cases hlen
      refine .cons ?_ (ih (fun u hu => h u (List.mem_cons_of_mem _ hu)) (Nat.succ.inj hlen)
        fun t ht => hany t (List.mem_cons_of_mem _ ht))
      rw [hany s List.mem_cons_self]
      exact h v List.mem_cons_self

/-- What holds a class that is being declared holds it later as a class like any other. -/
theorem Holds.settle {c : Class} {k : Nat} (hc : (Value.cls c).Ok w n)
    (h : Holds w n vs (List.replicate k (.temp (.own c)) ++ Γ)) :
    Holds w n vs (List.replicate k (.temp (.is (.cls c))) ++ Γ) := by
  induction k generalizing vs with
  | zero => exact h
  | succ k ih =>
      obtain ⟨v, us, hv, hus, rfl⟩ := List.forall₂_cons_right_iff.mp h
      exact .cons ⟨hv, hc⟩ (ih hus)

end Mono

/-! ## The store -/

/-- A function of the host that answers a constant or one of its arguments. -/
def NativeFunction.Modest (f : NativeFunction) : Prop :=
  ∀ time arguments, (f time arguments).IsPlain ∨ f time arguments ∈ arguments

/-- The global variable of a class that is only just being declared holds what no other does. -/
def Decl.excused : Option Decl → Option String
  | some d => if d.fresh then d.holder else none
  | none => none

/-- Classes inherit from older ones, and closures belong to classes that can inherit no more. -/
structure Lineage.Ordered (ℓ : Lineage) (ids classes size : Nat) : Prop where
  older : ∀ (id : Nat) (c : Class), ℓ.parent id = some c → c.id < classes ∧ c.id < id
  unborn : ∀ id, size ≤ id → ℓ.own id = [] ∧ ℓ.parent id = none
  homes : ∀ (id : Nat) (c : Class), ℓ.home id = some c → id < ids ∧ c.id < classes

structure Steady (w : World) (n : Nat) (Γ : List Slot) (x : Option String) (s : Store)
    (globals : HashMap String Value) (openCells : List (Nat × Nat)) : Prop where
  chunks : s.chunks = w.routines.map (·.code)
  globals : ∀ (name : String) (v : Value), globals[name]? = some v → x ≠ some name → v.Ok w n
  methods : ∀ c name f, s.method? c name = some f → f.Ok w n (· = methodKind name)
  fields : ∀ o name v, s.field? o name = some v → v.Ok w n
  natives : ∀ (i : Nat) (f : NativeFunction), s.natives[i]? = some f → f.Modest
  size : w.kinds.size = s.cells.size
  closed : ∀ (c : Nat) (v : Value) (k : Kind), s.cells[c]? = some (.closed v) →
    w.kinds[c]? = some k → Fits w n v k
  opened : ∀ (c slot : Nat), s.cells[c]? = some (.inSlot slot) ↔ (slot, c) ∈ openCells
  shared : ∀ (slot c : Nat), (slot, c) ∈ openCells →
    ∃ k, w.kinds[c]? = some k ∧ atSlot? Γ slot = some ⟨k, true⟩
  descending : Machine.Descending openCells
  ids : w.ids ≤ s.nextId
  classes : w.classes ≤ s.methods.size
  ordered : w.lineage.Ordered w.ids w.classes s.methods.size

/-- Whether a class is being declared, and how far its declaration is. -/
inductive Declaring (ℓ : Lineage) (classes size : Nat) (globals : HashMap String Value) :
    Option Decl → Prop
  | none : ℓ.current = none → size = classes → Declaring ℓ classes size globals none
  | fresh {d : Decl} : d.fresh = true → ℓ.current = some d.cls → d.cls.id = classes →
      size = classes + 1 → ℓ.own d.cls.id = [] → ℓ.parent d.cls.id = d.parent →
      d.parent = Option.none →
      (∀ name, d.holder = some name → globals[name]? = some (.cls d.cls)) →
      Declaring ℓ classes size globals (some d)
  | grown {d : Decl} : d.fresh = false → ℓ.current = some d.cls → d.cls.id + 1 = classes →
      size = classes → ℓ.parent d.cls.id = d.parent →
      (∀ name, d.holder = some name → globals[name]? = some (.cls d.cls)) →
      Declaring ℓ classes size globals (some d)

/-- The suspended calls, from the innermost one on, with all their slots. -/
inductive Calls (w : World) (n : Nat) : List Frame → List Slot → Prop where
  | none : Calls w n [] []
  | call {f fs G E s Γ} : f.closure.Has w G E → Grounded G.kind s →
      Safe w.routines n G E f.ip ⟨.temp .any :: s, none⟩ → f.base = Γ.length → Calls w n fs Γ →
      Calls w n (f :: fs) (s ++ Γ)

section Mono

variable {w w' : World} {n : Nat} {fs : List Frame} {Γ Δ : List Slot} {s : Store}
  {globals : HashMap String Value} {openCells : List (Nat × Nat)} {x : Option String}

theorem Calls.mono (h : Calls w n fs Γ) (hw : w.Le w') : Calls w' n fs Γ := by
  induction h with
  | none => exact .none
  | call hhas hground hsafe hbase _ ih =>
      exact .call (hhas.mono hw) hground (hsafe.extend hw.routines) hbase ih

theorem Calls.succ (h : Calls w (n + 1) fs Γ) : Calls w n fs Γ := by
  induction h with
  | none => exact .none
  | call hhas hground hsafe hbase _ ih => exact .call hhas hground hsafe.succ hbase ih

theorem Steady.succ (h : Steady w (n + 1) Γ x s globals openCells) :
    Steady w n Γ x s globals openCells :=
  { h with
    globals := fun name v hv hx => (h.globals name v hv hx).succ
    methods := fun c name f hf => (h.methods c name f hf).succ
    fields := fun o name v hv => (h.fields o name v hv).succ
    closed := fun c v k hv hk => (h.closed c v k hv hk).succ }

/-- The world may grow as the store allows it. -/
theorem Steady.evolve (h : Steady w n Γ x s globals openCells) (hw : w.Le w')
    (hroutines : w'.routines = w.routines) (hkinds : w'.kinds = w.kinds) (hids : w'.ids ≤ s.nextId)
    (hclasses : w'.classes ≤ s.methods.size)
    (hordered : w'.lineage.Ordered w'.ids w'.classes s.methods.size) :
    Steady w' n Γ x s globals openCells where
  chunks := hroutines ▸ h.chunks
  globals name v hv hx := (h.globals name v hv hx).mono hw
  methods c name f hf := (h.methods c name f hf).mono hw
  fields o name v hv := (h.fields o name v hv).mono hw
  natives := h.natives
  size := hkinds ▸ h.size
  closed c v k hv hk := (h.closed c v k hv (hkinds ▸ hk)).mono hw
  opened := h.opened
  shared := hkinds ▸ h.shared
  descending := h.descending
  ids := hids
  classes := hclasses
  ordered := hordered

/-- Only slots that are shared matter to the store. -/
theorem Steady.of_shared (h : Steady w n Γ x s globals openCells)
    (hΓ : ∀ slot k, atSlot? Γ slot = some ⟨k, true⟩ → atSlot? Δ slot = some ⟨k, true⟩) :
    Steady w n Δ x s globals openCells :=
  { h with
    shared := fun slot c hmem =>
      have ⟨k, hk, hslot⟩ := h.shared slot c hmem
      ⟨k, hk, hΓ slot k hslot⟩ }

theorem Steady.retype (h : Steady w n Γ x s globals openCells)
    (hΓ : List.Forall₂ (fun s t => s.shared = true → t = s) Γ Δ) :
    Steady w n Δ x s globals openCells := by
  refine h.of_shared fun slot k hslot => ?_
  obtain ⟨t, ht, hst⟩ := forall₂_atSlot? hΓ.flip hslot
  rw [ht, hst rfl]

theorem Steady.weaken (h : Steady w n Γ x s globals openCells) (hle : List.Forall₂ Slot.Le Γ Δ) :
    Steady w n Δ x s globals openCells :=
  h.retype (hle.imp fun _ _ hst => hst.of_shared)

/-- Temporaries can be replaced. -/
theorem Steady.replace {top : List Slot} (h : Steady w n (top ++ Γ) x s globals openCells)
    (htop : ∀ t ∈ top, t.shared = false) (top' : List Slot) :
    Steady w n (top' ++ Γ) x s globals openCells := by
  refine h.of_shared fun slot k hslot => ?_
  by_cases hlt : slot < Γ.length
  · rw [atSlot?_append_right _ _ hlt] at hslot ⊢
    exact hslot
  · obtain ⟨d, rfl⟩ := Nat.exists_eq_add_of_le (Nat.le_of_not_lt hlt)
    rw [atSlot?_append_left] at hslot
    cases htop _ (mem_of_atSlot? hslot)

theorem Steady.push (h : Steady w n Γ x s globals openCells) (slot : Slot) :
    Steady w n (slot :: Γ) x s globals openCells :=
  have h' : Steady w n ([] ++ Γ) x s globals openCells := h
  h'.replace (fun _ hmem => by cases hmem) [slot]

end Mono

end LoxMachine
