import Mathlib.Logic.Relation
import LoxMachine.Proofs.Typing.Underway

/-!
# Inheritance

A class has one table of methods, into which those of its superclass have been copied. The table
answers as a walk up the superclasses would (`Lineage.Describes`): a class can be inherited from only
when its own table is complete, and from then on neither changes. The history of a run says which
class a method belongs to, and a call through `super` looks the method up from there.

Main statement: `Underway.inherits`.
-/

namespace LoxMachine

open Machine

/-! ## The chain of superclasses -/

/-- What a walk from a class up its superclasses finds under a name. -/
inductive Lineage.Selects (ℓ : Lineage) (name : String) : Class → Closure → Prop where
  | own {c g} : (ℓ.own c.id).lookup name = some g → Selects ℓ name c g
  | inherited {c s g} : (ℓ.own c.id).lookup name = none → ℓ.parent c.id = some s →
      Selects ℓ name s g → Selects ℓ name c g

/-- The class has been made and its body is not being executed. -/
structure Lineage.Completed (ℓ : Lineage) (m : Machine) (c : Class) : Prop where
  made : c.id < m.store.methods.size
  left : ∀ d, ℓ.current = some d → d.id ≠ c.id

/-- A class has the methods in its body, the last of a name, and otherwise those of its superclass;
and the methods in its body belong to it. -/
structure Lineage.Describes (ℓ : Lineage) (s : Store) : Prop where
  lookup : ∀ c name, s.method? c name =
    ((ℓ.own c.id).lookup name).or ((ℓ.parent c.id).bind (s.method? · name))
  home : ∀ id name g, (name, g) ∈ ℓ.own id → ∃ c, ℓ.home g.id = some c ∧ c.id = id

/-- What has been said about a class in one state holds in another. -/
structure Lineage.Retains (ℓ ℓ' : Lineage) (m m' : Machine) (c : Class) : Prop where
  method? : ∀ name, m'.store.method? c name = m.store.method? c name
  parent : ℓ'.parent c.id = ℓ.parent c.id
  own : ℓ'.own c.id = ℓ.own c.id

/-- The next instruction reads or calls a method of the superclass. -/
def Instr.super? : Instr → Option String
  | .getSuper name | .superInvoke name _ => some name
  | _ => none

/-- The method is bound to its receiver on top of the stack, or has been entered. -/
def Machine.Selected (m : Machine) (g : Closure) : Instr → Prop
  | .getSuper _ => ∃ id receiver, m.stack.back? = some (.bound id receiver g)
  | .superInvoke _ _ => ∃ base fs, m.frames = ⟨g, 0, base⟩ :: fs
  | _ => False

section Walk

variable {ℓ : Lineage} {s : Store} {name : String} {c : Class} {g : Closure}

theorem Lineage.Describes.of_selects (h : ℓ.Describes s) (hg : ℓ.Selects name c g) :
    s.method? c name = some g := by
  induction hg with
  | own hown => rw [h.lookup, hown, Option.some_or]
  | inherited hown hparent _ ih => rw [h.lookup, hown, hparent, Option.none_or, Option.bind_some, ih]

/-- Superclasses are older, so the walk comes to an end. -/
theorem Lineage.Describes.selects {ids classes size : Nat} (h : ℓ.Describes s)
    (hordered : ℓ.Ordered ids classes size) (hg : s.method? c name = some g) :
    ℓ.Selects name c g := by
  generalize hid : c.id = id
  induction id using Nat.strongRecOn generalizing c with
  | ind id ih =>
      subst hid
      rw [h.lookup] at hg
      cases hown : (ℓ.own c.id).lookup name with
      | some g' =>
          rw [hown, Option.some_or] at hg
          exact .own (hown.trans hg)
      | none =>
          rw [hown, Option.none_or] at hg
          obtain ⟨parent, hparent, hg⟩ := Option.bind_eq_some_iff.mp hg
          exact .inherited hown hparent (ih parent.id (hordered.older _ _ hparent).2 hg rfl)

end Walk

/-! ## Tables of methods -/

/-- Instructions that make a class or change its table. -/
def Instr.Declares : Instr → Prop
  | .makeClass _ | .inherit | .method _ => True
  | _ => False

section Steps

variable {rs : Array Routine} {ℓ : Lineage} {m m' : Machine} {f : Frame} {q : Nat} {ins : Instr}

theorem Machine.methods_captured (m : Machine) (slot : Nat) :
    (m.captured slot).2.store.methods = m.store.methods := by
  rw [captured]
  split <;> rfl

theorem Machine.methods_closed (m : Machine) (base : Nat) :
    (m.closed base).store.methods = m.store.methods := by
  rw [show (m.closed base).store = _ from closeCells_eq _ _ _]

theorem Machine.Captures.methods_eq {cs : List Capture} {cells : List Nat}
    (h : Captures f cs m cells m') : m'.store.methods = m.store.methods := by
  induction h with
  | nil => rfl
  | «local» _ ih => exact ih.trans (methods_captured _ _)
  | outer _ _ ih => exact ih

theorem Machine.Calling.methods_eq {args rest : List Value} {v : Value}
    (h : Calling m args rest v m') : m'.store.methods = m.store.methods := by
  cases h <;> rfl

theorem Effect.methods_eq (h : Effect f q ins m m') (hins : ¬ ins.Declares) :
    m'.store.methods = m.store.methods := by
  cases h with
  | call _ _ hcall | invokeField _ _ _ hcall => exact hcall.methods_eq
  | invokeMethod _ _ _ hcall | superInvoke _ _ hcall =>
      obtain ⟨g, rfl⟩ := hcall.eq_entered
      rfl
  | closure hcaptures => exact hcaptures.methods_eq
  | closeUpvalue => exact methods_closed (m.goto q) _
  | finish => exact methods_closed ({ m with frames := [] }.setValues _) f.base
  | @ret _ g' fs => exact methods_closed ({ m with frames := g' :: fs }.setValues _) f.base
  | makeClass | inherit | method => exact absurd trivial hins
  | _ => rfl

/-- Other instructions say nothing about classes but which one is being executed. -/
theorem Lineage.after_of_not_declares (ℓ : Lineage) (m : Machine) (h : ¬ ins.Declares) :
    (ℓ.after m ins).parent = ℓ.parent ∧ (ℓ.after m ins).own = ℓ.own ∧
      (∀ id, id ≠ m.store.nextId → (ℓ.after m ins).home id = ℓ.home id) ∧
      ((ℓ.after m ins).current = ℓ.current ∨ (ℓ.after m ins).current = none) := by
  cases ins with
  | makeClass | inherit | method => exact absurd trivial h
  | closure => exact ⟨rfl, rfl, fun id hne => set_ne _ _ hne, .inl rfl⟩
  | pop => exact ⟨rfl, rfl, fun _ _ => rfl, .inr rfl⟩
  | _ => exact ⟨rfl, rfl, fun _ _ => rfl, .inl rfl⟩

end Steps

/-! ## Declarations -/

section Declarations

variable {ℓ : Lineage} {s : Store}

theorem Lineage.Describes.newClass (h : ℓ.Describes s) (name : String) (c : Option Class) :
    Lineage.Describes { ℓ with current := c } (s.newClass name).2 where
  lookup c' key := by
    simp only [Store.method?_newClass]
    exact h.lookup c' key
  home := h.home

/-- A class without methods gets those of another one. -/
theorem Lineage.Describes.inherit {child parent : Class} (h : ℓ.Describes s)
    (hlt : child.id < s.methods.size) (hown : ℓ.own child.id = [])
    (hparent : ℓ.parent child.id = none) (hne : parent.id ≠ child.id)
    (holder : ∀ id c, ℓ.parent id = some c → c.id ≠ child.id) :
    Lineage.Describes { ℓ with parent := Lineage.set ℓ.parent child.id (some parent) }
      (s.inherit parent child) where
  lookup c name := by
    have hother (c' : Class) (hc' : c'.id ≠ child.id) :
        (s.inherit parent child).method? c' name = s.method? c' name := by
      rw [Store.method?_inherit, if_neg fun hid => hc' hid.1.symm]
    by_cases hc : c.id = child.id
    · have hnone : s.method? c name = none := by
        rw [h.lookup, hc, hown, hparent]
        rfl
      rw [Store.method?_inherit, if_pos ⟨hc.symm, hlt⟩, hnone, Option.or_none]
      change _ = ((ℓ.own c.id).lookup name).or ((Lineage.set ℓ.parent child.id _ c.id).bind _)
      rw [hc, hown, Lineage.set_self, Option.bind_some, hother parent hne]
      rfl
    · rw [hother c hc]
      change _ = ((ℓ.own c.id).lookup name).or ((Lineage.set ℓ.parent child.id _ c.id).bind _)
      rw [Lineage.set_ne _ _ hc, h.lookup]
      cases hp : ℓ.parent c.id with
      | none => rfl
      | some p => rw [Option.bind_some, Option.bind_some, hother p (holder _ _ hp)]
  home := h.home

theorem Lineage.Describes.setMethod {c : Class} {g : Closure} {name : String}
    (h : ℓ.Describes s) (hlt : c.id < s.methods.size) (hhome : ℓ.home g.id = some c)
    (holder : ∀ id p, ℓ.parent id = some p → p.id ≠ c.id) :
    Lineage.Describes { ℓ with own := Lineage.set ℓ.own c.id ((name, g) :: ℓ.own c.id) }
      (s.setMethod c name g) where
  lookup c' key := by
    have hother (p : Class) (hp : p.id ≠ c.id) :
        (s.setMethod c name g).method? p key = s.method? p key := by
      rw [Store.method?_setMethod, if_neg fun hid => hp hid.1.symm]
    have hparent : (ℓ.parent c'.id).bind ((s.setMethod c name g).method? · key) =
        (ℓ.parent c'.id).bind (s.method? · key) := by
      cases hp : ℓ.parent c'.id with
      | none => rfl
      | some p => rw [Option.bind_some, Option.bind_some, hother p (holder _ _ hp)]
    change _ = ((Lineage.set ℓ.own c.id _ c'.id).lookup key).or _
    rw [hparent]
    by_cases hc : c'.id = c.id
    · rw [hc, Lineage.set_self, Store.method?_setMethod]
      by_cases hname : name = key
      · rw [if_pos ⟨hc.symm, hlt, hname⟩, hname, List.lookup_cons_self, Option.some_or]
      · rw [if_neg fun hid => hname hid.2.2, List.lookup_cons, beq_false_of_ne (Ne.symm hname),
          h.lookup, hc]
    · rw [Lineage.set_ne _ _ hc, hother c' hc, h.lookup]
  home id key g' hmem := by
    by_cases hid : id = c.id
    · subst hid
      change (key, g') ∈ Lineage.set ℓ.own c.id _ c.id at hmem
      rw [Lineage.set_self] at hmem
      rcases List.mem_cons.mp hmem with heq | hmem
      · obtain ⟨-, rfl⟩ := Prod.mk.inj heq
        exact ⟨c, hhome, rfl⟩
      · exact h.home c.id key g' hmem
    · change (key, g') ∈ Lineage.set ℓ.own c.id _ id at hmem
      rw [Lineage.set_ne _ _ hid] at hmem
      exact h.home id key g' hmem

end Declarations

/-! ## Steps -/

section Next

variable {rs : Array Routine} {ℓ : Lineage} {m m' : Machine}

theorem Lineage.Retains.refl (ℓ : Lineage) (m : Machine) (c : Class) : ℓ.Retains ℓ m m c :=
  ⟨fun _ => rfl, rfl, rfl⟩

theorem Lineage.Retains.trans {ℓ' ℓ'' : Lineage} {m'' : Machine} {c : Class}
    (h : ℓ.Retains ℓ' m m' c) (h' : ℓ'.Retains ℓ'' m' m'' c) : ℓ.Retains ℓ'' m m'' c :=
  ⟨fun name => (h'.method? name).trans (h.method? name), h'.parent.trans h.parent,
    h'.own.trans h.own⟩

/-- The tables are as the history has them, and no class that was complete has changed. -/
def Lineage.Upholds (ℓ ℓ' : Lineage) (m m' : Machine) : Prop :=
  ℓ'.Describes m'.store ∧ ∀ c, ℓ.Completed m c → ℓ'.Completed m' c ∧ ℓ.Retains ℓ' m m' c

section Upholds

variable {w : World} {f : Frame} {fs : List Frame} {G : Layout} {E : Env} {σ : Shape} {Γ : List Slot}
  {name : String} {ins : Instr} {n k q : Nat}

theorem upholds_makeClass (hd : w.lineage.Describes m.store) (heffect : Effect f q (.makeClass name) m m') :
    w.lineage.Upholds (w.lineage.after m (.makeClass name)) m m' := by
  cases heffect
  have hsize : (m.store.newClass name).2.methods.size = m.store.methods.size + 1 := Array.size_push _
  refine ⟨hd.newClass name (some (m.store.newClass name).1), fun c hc => ⟨⟨?_, fun d heq => ?_⟩, ?_⟩⟩
  · exact Nat.lt_of_lt_of_eq (Nat.lt_succ_of_lt hc.made) hsize.symm
  · obtain rfl := Option.some.inj heq
    exact Nat.ne_of_gt hc.made
  · exact ⟨fun key => Store.method?_newClass _ name c key, rfl, rfl⟩

theorem upholds_inherit (R : Running w n m f fs G E σ Γ) (hd : w.lineage.Describes m.store)
    (hflow : Flow w.routines (Safe w.routines k) G E q .inherit σ) (heffect : Effect f q .inherit m m') :
    w.lineage.Upholds (w.lineage.after m .inherit) m m' := by
  have hordered := R.steady.ordered
  have hclasses := R.steady.classes
  have hdecl := R.declaring
  cases heffect with
  | @inherit child parent vs _ hvs =>
  cases hflow with
  | @inherit _ s d _ hfresh =>
  obtain ⟨v, us, heq, hv, hus⟩ := R.uncons
  obtain ⟨u, us, hu, -, rfl⟩ := List.forall₂_cons_right_iff.mp hus
  obtain ⟨hv', hrest⟩ := List.cons.inj (hvs.symm.trans heq)
  obtain ⟨rfl, -⟩ := List.cons.inj hrest
  obtain rfl : child = d.cls := by
    cases hv'.trans hv
    rfl
  have hparent : parent.id < w.classes := hu
  cases hdecl with
  | grown hgrown => exact absurd hfresh (by simp [hgrown])
  | fresh _ hcurrent hid hsize hown hnone hnone' =>
  rw [Lineage.after_inherit hvs]
  have holder (id : Nat) (c : Class) (hc : w.lineage.parent id = some c) : c.id ≠ d.cls.id :=
    Nat.ne_of_lt (hid ▸ (hordered.older id c hc).1)
  refine ⟨hd.inherit (by omega) hown (hnone.trans hnone') (by omega) holder,
    fun c hc => ⟨⟨?_, hc.left⟩, ?_⟩⟩
  · change c.id < (m.store.methods.modify _ _).size
    rw [Array.size_modify]
    exact hc.made
  · have hne : c.id ≠ d.cls.id := (hc.left _ hcurrent).symm
    refine ⟨fun name => ?_, Lineage.set_ne _ _ hne, rfl⟩
    exact (Store.method?_inherit _ _ _ _ _).trans (if_neg fun h => hne h.1.symm)

theorem upholds_method (R : Running w n m f fs G E σ Γ) (hd : w.lineage.Describes m.store)
    (hflow : Flow w.routines (Safe w.routines k) G E q (.method name) σ)
    (heffect : Effect f q (.method name) m m') :
    w.lineage.Upholds (w.lineage.after m (.method name)) m m' := by
  have hordered := R.steady.ordered
  have hclasses := R.steady.classes
  have hdecl := R.declaring
  cases heffect with
  | @method _ g c vs _ hvs =>
  cases hflow with
  | @method _ s d hgrown =>
  obtain ⟨v, us, heq, ⟨g', rfl, -, hhome⟩, hus⟩ := R.uncons
  obtain ⟨u, us, ⟨rfl, -⟩, -, rfl⟩ := List.forall₂_cons_right_iff.mp hus
  obtain ⟨heq, heq'⟩ := List.cons.inj (hvs.symm.trans heq)
  obtain rfl := Value.closure.inj heq
  obtain rfl := Value.cls.inj (List.cons.inj heq').1
  cases hdecl with
  | fresh hfresh => exact absurd hfresh (by simp [hgrown])
  | grown _ hcurrent hid hsize =>
  have hnext : w.lineage.after m (.method name) = { w.lineage with
      own := Lineage.set w.lineage.own d.cls.id ((name, g) :: w.lineage.own d.cls.id) } := by
    rw [Lineage.after, hvs]
  rw [hnext]
  have holder (id : Nat) (p : Class) (hp : w.lineage.parent id = some p) : p.id ≠ d.cls.id := by
    have hlt : id < m.store.methods.size := by
      by_contra hge
      cases hp.symm.trans (hordered.unborn id (Nat.le_of_not_lt hge)).2
    have := (hordered.older id p hp).2
    omega
  refine ⟨hd.setMethod (by omega) hhome holder, fun c hc => ⟨⟨?_, hc.left⟩, ?_⟩⟩
  · change c.id < (m.store.methods.modify _ _).size
    rw [Array.size_modify]
    exact hc.made
  · have hne : c.id ≠ d.cls.id := (hc.left _ hcurrent).symm
    refine ⟨fun key => ?_, rfl, Lineage.set_ne _ _ hne⟩
    exact (Store.method?_setMethod _ _ _ _ _ _).trans (if_neg fun h => hne h.1.symm)

/-- Other instructions change no table. -/
theorem upholds_of_not_declares (R : Running w n m f fs G E σ Γ) (hd : w.lineage.Describes m.store)
    (hins : ¬ ins.Declares) (heffect : Effect f q ins m m') :
    w.lineage.Upholds (w.lineage.after m ins) m m' := by
  obtain ⟨hparent, hown, hhome, hcurrent⟩ := Lineage.after_of_not_declares w.lineage m hins
  have hmethods := heffect.methods_eq hins
  have hmethod? (c : Class) (name : String) : m'.store.method? c name = m.store.method? c name := by
    rw [Store.method?, Store.method?, hmethods]
  refine ⟨⟨fun c name => ?_, fun id name g hmem => ?_⟩, fun c hc => ⟨⟨?_, fun d heq => ?_⟩, ?_⟩⟩
  · simp only [hmethod?, hparent, hown]
    exact hd.lookup c name
  · rw [hown] at hmem
    obtain ⟨c, hc, hid⟩ := hd.home id name g hmem
    have hlt := Nat.lt_of_lt_of_le (R.steady.ordered.homes _ _ hc).1 R.steady.ids
    exact ⟨c, (hhome g.id (Nat.ne_of_lt hlt)).trans hc, hid⟩
  · rw [hmethods]
    exact hc.made
  · rcases hcurrent with hsame | hnone
    · exact hc.left d (hsame.symm.trans heq)
    · cases hnone.symm.trans heq
  · exact ⟨hmethod? c, congrFun hparent _, congrFun hown _⟩

end Upholds

/-- A step keeps the tables as the history has them, and it changes no class that is complete. -/
theorem Live.describes (h : Live rs ℓ 1 m) (hd : ℓ.Describes m.store)
    (hrun : Machine.step m = .ok () m') :
    (ℓ.next m).Describes m'.store ∧
      ∀ c, ℓ.Completed m c → (ℓ.next m).Completed m' c ∧ ℓ.Retains (ℓ.next m) m m' c := by
  obtain ⟨w, f, fs, G, E, σ, Γ, ins, q, rfl, rfl, R, hi, -, hflow⟩ := h.view
  rw [Lineage.next_eq R.frames hi]
  have heffect := effect_of_step R.frames hi hrun
  by_cases hins : ins.Declares
  · cases ins with
    | makeClass => exact upholds_makeClass hd heffect
    | inherit => exact upholds_inherit R hd hflow heffect
    | method => exact upholds_method R hd hflow heffect
    | _ => exact absurd hins id
  · exact upholds_of_not_declares R hd hins heffect

/-! ## The name of the superclass -/

/-- The value of a variable that the frame can name. -/
def Machine.denotes? (m : Machine) (f : Frame) : Access → Option Value
  | .local n => m.stack[f.base + n]?
  | .captured n => f.closure.cells[n]?.bind m.reads?
  | .global name => m.globals[name]?

theorem Effect.of_get {f : Frame} {q : Nat} {x : Access} (h : Effect f q x.get m m') :
    ∃ v, m.denotes? f x = some v ∧ m' = (m.goto q).setValues (v :: m.values) := by
  cases x with
  | «local» n =>
      cases h with
      | getLocal hv => exact ⟨_, (getElem?_stack _ _).trans hv, rfl⟩
  | captured n =>
      cases h with
      | getUpvalue hcell hv => exact ⟨_, by rw [denotes?, hcell, Option.bind_some, hv], rfl⟩
  | global name =>
      cases h with
      | getGlobal hv => exact ⟨_, hv, rfl⟩

/-- Reading a variable changes nothing that the history is about. -/
theorem Machine.Steps.get {f : Frame} {fs : List Frame} {j : Nat} {x : Access}
    (hframes : m.frames = f :: fs)
    (hi : (m.store.chunk f.closure.function).instr? f.ip = some (x.get, j)) (h : m.Steps m') :
    ∃ v, m.denotes? f x = some v ∧ m'.values = v :: m.values ∧ m'.store = m.store ∧
      m'.frames = { f with ip := j } :: fs ∧ ℓ.next m = ℓ := by
  obtain ⟨time, console, heffect⟩ := h.effect hframes hi
  obtain ⟨v, hv, rfl⟩ := heffect.of_get
  refine ⟨v, ?_, values_setValues _ _, rfl, frames_goto _ j hframes, ?_⟩
  · rw [← hv]
    cases x <;> rfl
  · rw [Lineage.next_eq hframes hi]
    cases x <;> rfl

/-! ## Methods of the superclass -/

theorem Lineage.parentOf_eq_some {closure : Nat} {parent : Class}
    (h : ℓ.parentOf closure = some parent) :
    ∃ c, ℓ.home closure = some c ∧ ℓ.parent c.id = some parent :=
  Option.bind_eq_some_iff.mp h

/-- A look-up through `super` begins at the superclass of the class that the running closure belongs
to, and finds what the table of that superclass has. -/
theorem Live.super (h : Live rs ℓ 1 m) {f : Frame} {fs : List Frame} {ins : Instr} {q : Nat}
    {name : String} (hframes : m.frames = f :: fs)
    (hi : (m.store.chunk f.closure.function).instr? f.ip = some (ins, q))
    (hname : ins.super? = some name) :
    ∃ c parent, ℓ.home f.closure.id = some c ∧ ℓ.parent c.id = some parent ∧
      (∀ m', Machine.step m = .ok () m' →
        ∃ g, m.store.method? parent name = some g ∧ m'.Selected g ins) ∧
      (m.store.method? parent name = none →
        ∃ m', Machine.step m = .error (.runtime (.undefinedProperty name)) m') := by
  obtain ⟨w, f', fs', G, E, σ, Γ, ins', q', rfl, rfl, R, hi', -, hflow⟩ := h.view
  obtain ⟨rfl, rfl⟩ := List.cons.inj (hframes.symm.trans R.frames)
  obtain ⟨rfl, rfl⟩ := Prod.mk.inj (Option.some.inj (hi.symm.trans hi'))
  have hfails {parent : Class} {vs : List Value} {x : Closure → Action Unit}
      (hvs : m.values = .cls parent :: vs) (hnone : m.store.method? parent name = none)
      (hexec : ins.exec q = do Machine.moveTo q; let c ← popClass; let g ← method c name; x g) :
      ∃ m', Machine.step m = .error (.runtime (.undefinedProperty name)) m' := by
    rw [step_eq_exec R.frames hi, hexec, bind_apply, moveTo_goto R.frames]
    dsimp only
    rw [bind_apply, popClass_cons (m := m.goto q) hvs]
    dsimp only
    have hmethod : method parent name ((m.goto q).setValues vs) =
        .error (.runtime (.undefinedProperty name)) ((m.goto q).setValues vs) := by
      simp [method, hnone]
    rw [bind_apply, hmethod]
    exact ⟨_, rfl⟩
  cases hflow with
  | @getSuper _ c o s hE =>
      obtain rfl := Option.some.inj hname
      obtain ⟨v, vs, hvs, ⟨rfl, -⟩, -⟩ := R.uncons
      obtain ⟨home, hhome, hparent⟩ := Lineage.parentOf_eq_some (R.has.parent.trans hE)
      refine ⟨home, c, hhome, hparent, fun m' hrun => ?_, fun hnone => hfails hvs hnone rfl⟩
      have heffect := effect_of_step R.frames hi hrun
      cases heffect with
      | @getSuper _ c' r g us _ hvs' hg =>
      obtain rfl := Value.cls.inj (List.cons.inj (hvs.symm.trans hvs')).1
      refine ⟨g, hg, m.store.nextId, r, ?_⟩
      rw [back?_stack, values_setValues]
      rfl
  | @superInvoke _ n c o s hE =>
      obtain rfl := Option.some.inj hname
      obtain ⟨v, vs, hvs, ⟨rfl, -⟩, -⟩ := R.uncons
      obtain ⟨home, hhome, hparent⟩ := Lineage.parentOf_eq_some (R.has.parent.trans hE)
      refine ⟨home, c, hhome, hparent, fun m' hrun => ?_, fun hnone => hfails hvs hnone rfl⟩
      have heffect := effect_of_step R.frames hi hrun
      cases heffect with
      | @superInvoke _ _ c' args r rest _ _ hvs' _ hinvoke =>
      obtain rfl := Value.cls.inj (List.cons.inj (hvs.symm.trans hvs')).1
      cases hinvoke with
      | @method g hg => exact ⟨g, hg, rest.length, _, rfl⟩
  | _ => cases hname

end Next

/-! ## Runs -/

section Run

variable {p : Program} {ℓ : Lineage} {m m' : Machine} {source : String}

theorem methods_of_enter {f : Function} {u : Unit} (h : Machine.enter f m = .ok u m') :
    m'.store.methods = m.store.methods := by
  obtain ⟨closure, m₁, hmake, h⟩ := bind_eq_ok.mp h
  cases hmake
  obtain ⟨_, m₂, hpush, hcall⟩ := bind_eq_ok.mp h
  obtain rfl := push_eq_ok hpush rfl
  obtain ⟨-, rfl⟩ := @call_eq_ok _ _ [] _ _ _ _ (values_setValues _ _) hcall
  rfl

theorem Lineage.describes_start {s : Store} (h : s.methods = #[]) : Lineage.start.Describes s where
  lookup c name := by simp [Store.method?, h, Lineage.start]
  home := nofun

/-- What one step does to the classes of a program underway. -/
theorem Underway.step (hp : Program.compile 0 source = .ok p) (h : Underway p ℓ m)
    (hd : ℓ.Describes m.store) (hstep : m.Steps m') :
    (ℓ.next m).Describes m'.store ∧
      ∀ c, ℓ.Completed m c → (ℓ.next m).Completed m' c ∧ ℓ.Retains (ℓ.next m) m m' c := by
  have hlive := h.live hp hstep.frames_ne_nil 1
  obtain ⟨time, console, hrun⟩ := hstep
  obtain ⟨hd', hsame⟩ := (hlive.host time console).describes hd hrun
  refine ⟨hd', fun c hc => ?_⟩
  obtain ⟨hc', hretains⟩ := hsame c ⟨hc.made, hc.left⟩
  exact ⟨hc', hretains.method?, hretains.parent, hretains.own⟩

theorem Underway.describes (hp : Program.compile 0 source = .ok p) (h : Underway p ℓ m) :
    ℓ.Describes m.store := by
  induction h with
  | entered henter => exact Lineage.describes_start ((methods_of_enter henter).trans rfl)
  | next h hstep ih => exact (h.step hp ih hstep).1

/-- Classes that are complete stay as they are for the rest of the run. -/
theorem Underway.retains (hp : Program.compile 0 source = .ok p) (h : Underway p ℓ m)
    (hlater : Relation.ReflTransGen Machine.Steps m m') :
    ∃ ℓ', Underway p ℓ' m' ∧ ∀ c, ℓ.Completed m c → ℓ'.Completed m' c ∧ ℓ.Retains ℓ' m m' c := by
  induction hlater with
  | refl => exact ⟨ℓ, h, fun c hc => ⟨hc, .refl ℓ m c⟩⟩
  | tail _ hstep ih =>
      obtain ⟨ℓ', h', hkept⟩ := ih
      have hnext := (h'.step hp (h'.describes hp) hstep).2
      refine ⟨_, h'.next hstep, fun c hc => ?_⟩
      obtain ⟨hc', hretains⟩ := hkept c hc
      exact ⟨(hnext c hc').1, hretains.trans (hnext c hc').2⟩

/-- Superclasses are older, so the walk up from a class comes to an end. -/
theorem Underway.selects (hp : Program.compile 0 source = .ok p) (h : Underway p ℓ m) {c : Class}
    {name : String} {g : Closure} (hg : m.store.method? c name = some g) : ℓ.Selects name c g := by
  have hd := h.describes hp
  rcases h.goes hp with ⟨-, hlive⟩ | ⟨-, hidle⟩
  · obtain ⟨w, f, fs, G, E, σ, Γ, -, rfl, R, -⟩ := hlive 0
    exact hd.selects R.steady.ordered hg
  · obtain ⟨w, -, rfl, hs, -⟩ := (hidle 0).steady
    exact hd.selects hs.ordered hg

/-- The declaration of a class reads the variable that its superclass is named by, then that of the
class itself, and the class inherits from what the first one held. -/
theorem Underway.parent_named (hp : Program.compile 0 source = .ok p) (h : Underway p ℓ m)
    {f : Frame} {fs : List Frame} {j k q : Nat} {x y : Access} (hframes : m.frames = f :: fs)
    (hi : (m.store.chunk f.closure.function).instr? f.ip = some (x.get, j))
    (hj : (m.store.chunk f.closure.function).instr? j = some (y.get, k))
    (hk : (m.store.chunk f.closure.function).instr? k = some (.inherit, q)) {m₁ m₂ m₃ : Machine}
    (h₁ : m.Steps m₁) (h₂ : m₁.Steps m₂) (h₃ : m₂.Steps m₃) :
    ∃ c parent, ℓ.current = some c ∧ m.denotes? f x = some (.cls parent) ∧
      (((ℓ.next m).next m₁).next m₂).parent c.id = some parent := by
  obtain ⟨v, hv, hvalues₁, hstore₁, hframes₁, hℓ₁⟩ := h₁.get (ℓ := ℓ) hframes hi
  rw [← hstore₁] at hj hk
  obtain ⟨u, -, hvalues₂, hstore₂, hframes₂, hℓ₂⟩ := h₂.get (ℓ := ℓ) hframes₁ hj
  rw [← hstore₂] at hk
  have hlive := ((h.next h₁).next h₂).live hp h₃.frames_ne_nil 1
  rw [hℓ₁, hℓ₂] at hlive ⊢
  obtain ⟨w, f', fs', G, E, σ, Γ, ins, q', -, rfl, R, hi', -, hflow⟩ := hlive.view
  obtain ⟨rfl, rfl⟩ := List.cons.inj (hframes₂.symm.trans R.frames)
  obtain ⟨rfl, rfl⟩ := Prod.mk.inj (Option.some.inj (hk.symm.trans hi'))
  cases hflow with
  | @inherit n s d _ hfresh =>
  obtain ⟨v', us, hvalues, hv', -⟩ := R.uncons
  have hdecl := R.declaring
  cases hdecl with
  | grown hgrown => exact absurd hfresh (by simp [hgrown])
  | fresh _ hcurrent =>
  obtain ⟨time, console, heffect⟩ := h₃.effect hframes₂ hk
  cases heffect with
  | @inherit child parent vs _ hvs =>
  have hvs : m₂.values = .cls child :: .cls parent :: vs := hvs
  have hvu : m₂.values = u :: v :: m.values := by rw [hvalues₂, hvalues₁]
  obtain ⟨rfl, hrest⟩ := List.cons.inj (hvs.symm.trans hvu)
  obtain ⟨rfl, -⟩ := List.cons.inj hrest
  obtain ⟨rfl, -⟩ := List.cons.inj (hvs.symm.trans hvalues)
  obtain rfl := Value.cls.inj hv'
  refine ⟨_, parent, hcurrent, hv, ?_⟩
  rw [Lineage.next_eq hframes₂ hk, Lineage.after, hvs]
  exact Lineage.set_self _ _ _

theorem Chunk.eq_succ_of_instr?_inherit {c : Chunk} {p q : Nat}
    (h : c.instr? p = some (.inherit, q)) : q = p + 1 := by
  obtain ⟨op, -, h⟩ := Option.bind_eq_some_iff.mp h
  cases op with
  | inherit => exact (Prod.mk.inj (Option.some.inj h)).2.symm
  | _ =>
      simp only [decode] at h
      repeat' split at h
      all_goals simp [Option.map_eq_some_iff] at h

/-- In front of the instruction that lets a class inherit stand those that read the variables of the
superclass and of the class. -/
theorem Underway.inherit_behind_names (hp : Program.compile 0 source = .ok p) (h : Underway p ℓ m)
    {f : Frame} {fs : List Frame} {q : Nat} (hframes : m.frames = f :: fs)
    (hi : (m.store.chunk f.closure.function).instr? f.ip = some (.inherit, q)) :
    ∃ i j x y, (m.store.chunk f.closure.function).instr? i = some (Access.get x, j) ∧
      (m.store.chunk f.closure.function).instr? j = some (Access.get y, f.ip) := by
  have hlive := h.live hp (by rw [hframes]; exact List.cons_ne_nil _ _) 1
  obtain ⟨w, f', fs', G, E, σ, Γ, ins, q', -, rfl, R, hi', -, hflow⟩ := hlive.view
  obtain ⟨rfl, rfl⟩ := List.cons.inj (hframes.symm.trans R.frames)
  obtain ⟨rfl, rfl⟩ := Prod.mk.inj (Option.some.inj (hi.symm.trans hi'))
  have hcode : G.code = m.store.chunk f.closure.function := by
    rw [Store.chunk, R.steady.chunks, Array.getD_eq_getD_getElem?, Array.getElem?_map, R.has.routine]
    rfl
  cases hflow with
  | @inherit n s d hnames _ =>
  obtain ⟨i, j, b, x, y, hx, hy, hb⟩ := hnames
  rw [Layout.At, hcode] at hx hy hb
  obtain rfl : b = f.ip := by
    have := Chunk.eq_succ_of_instr?_inherit hb
    have := Chunk.eq_succ_of_instr?_inherit hi
    omega
  exact ⟨i, j, x, y, hx, hy⟩

/-- In every state of a run, the table of a class has the last method of each name in the body of the
class and for other names what the table of its superclass has, so that it agrees with a walk up the
superclasses. When the body has been executed, all this is settled for the rest of the run. The
superclass is what the variable it is named by held when the class was declared: the instruction that
lets a class inherit stands behind those that read this variable and that of the class. A look-up
through `super`, in a method or a closure inside of one, whatever the receiver is, begins at the
superclass of the class that the method stands in. -/
theorem Underway.inherits (hp : Program.compile 0 source = .ok p) (h : Underway p ℓ m) :
    ℓ.Describes m.store ∧
    (∀ c name g, m.store.method? c name = some g ↔ ℓ.Selects name c g) ∧
    (∀ m', Relation.ReflTransGen Machine.Steps m m' → ∃ ℓ', Underway p ℓ' m' ∧
      ∀ c, ℓ.Completed m c → ℓ'.Completed m' c ∧ ℓ.Retains ℓ' m m' c) ∧
    (∀ f fs q, m.frames = f :: fs →
      (m.store.chunk f.closure.function).instr? f.ip = some (.inherit, q) →
      ∃ i j x y, (m.store.chunk f.closure.function).instr? i = some (Access.get x, j) ∧
        (m.store.chunk f.closure.function).instr? j = some (Access.get y, f.ip)) ∧
    (∀ f fs j k q (x y : Access) m₁ m₂ m₃, m.frames = f :: fs →
      (m.store.chunk f.closure.function).instr? f.ip = some (x.get, j) →
      (m.store.chunk f.closure.function).instr? j = some (y.get, k) →
      (m.store.chunk f.closure.function).instr? k = some (.inherit, q) →
      m.Steps m₁ → m₁.Steps m₂ → m₂.Steps m₃ →
      ∃ c parent, ℓ.current = some c ∧ m.denotes? f x = some (.cls parent) ∧
        (((ℓ.next m).next m₁).next m₂).parent c.id = some parent) ∧
    ∀ f fs ins q name, m.frames = f :: fs →
      (m.store.chunk f.closure.function).instr? f.ip = some (ins, q) → ins.super? = some name →
      ∃ c parent, ℓ.home f.closure.id = some c ∧ ℓ.parent c.id = some parent ∧
        (∀ m', m.Steps m' → ∃ g, m.store.method? parent name = some g ∧ m'.Selected g ins) ∧
        (m.store.method? parent name = none → ∀ time console, ∃ m',
          Machine.step { m with time, console } = .error (.runtime (.undefinedProperty name)) m') := by
  have hd := h.describes hp
  refine ⟨hd, fun c name g => ⟨h.selects hp, hd.of_selects⟩, fun m' => h.retains hp,
    fun f fs q => h.inherit_behind_names hp,
    fun f fs j k q x y m₁ m₂ m₃ hframes hi hj hk => h.parent_named hp hframes hi hj hk,
    fun f fs ins q name hframes hi hname => ?_⟩
  have hlive := h.live hp (by rw [hframes]; exact List.cons_ne_nil _ _) 1
  obtain ⟨c, parent, hhome, hparent, -, -⟩ := hlive.super hframes hi hname
  refine ⟨c, parent, hhome, hparent, fun m' hstep => ?_, fun hnone time console => ?_⟩
  · obtain ⟨time, console, hrun⟩ := hstep
    obtain ⟨c', parent', hhome', hparent', hfinds, -⟩ :=
      (hlive.host time console).super hframes hi hname
    obtain rfl := Option.some.inj (hhome.symm.trans hhome')
    obtain rfl := Option.some.inj (hparent.symm.trans hparent')
    exact hfinds m' hrun
  · obtain ⟨c', parent', hhome', hparent', -, hfails⟩ :=
      (hlive.host time console).super hframes hi hname
    obtain rfl := Option.some.inj (hhome.symm.trans hhome')
    obtain rfl := Option.some.inj (hparent.symm.trans hparent')
    exact hfails hnone

/-- A class with a method of its own and a superclass. -/
theorem Underway.inherits_declared : ∃ p ℓ, Program.compile 0 inheritingSource = .ok p ∧
    Underway p ℓ ((Machine.new {}).runSource 14 inheritingSource).2 ∧
    ∀ c name g, ((Machine.new {}).runSource 14 inheritingSource).2.store.method? c name = some g ↔
      ℓ.Selects name c g := by
  obtain ⟨p, ℓ, hp, h⟩ := underway_inheriting
  exact ⟨p, ℓ, hp, h, (Underway.inherits hp h).2.1⟩

end Run

end LoxMachine
