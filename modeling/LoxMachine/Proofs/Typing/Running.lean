import LoxMachine.Proofs.Typing.Store

/-!
# A running machine

`Running` ties a machine to the shape of its running frame. The rules here say what the actions of
the stack do to a running machine. `Fine` is about actions that may fail at run time but break no
rule of the machine.
-/

namespace LoxMachine

open Std (HashMap)
open Machine

/-! ## Actions that break no rule -/

/-- An action ends as `Q` says or in a runtime error. -/
def Fine {α : Type} (Q : α → Machine → Prop) (x : Action α) (m : Machine) : Prop :=
  match x m with
  | .ok a m' => Q a m'
  | .error (.runtime _) _ => True
  | .error (.violation _) _ => False

namespace Fine

variable {α β : Type} {Q : β → Machine → Prop} {m m' : Machine}

theorem of_ok {x : Action β} {b : β} (h : x m = .ok b m') (hQ : Q b m') : Fine Q x m := by
  rw [Fine, h]
  exact hQ

theorem pure {b : β} (h : Q b m) : Fine Q (pure b) m :=
  h

theorem bind {x : Action α} {f : α → Action β} (h : Fine (fun a m' => Fine Q (f a) m') x m) :
    Fine Q (x >>= f) m := by
  unfold Fine at *
  rw [bind_apply]
  cases hx : x m with
  | ok a m' =>
      rw [hx] at h
      exact h
  | error e m' =>
      rw [hx] at h
      cases e with
      | runtime e => trivial
      | violation v => exact h

theorem bind_ok {x : Action α} {f : α → Action β} {a : α} (h : x m = .ok a m')
    (hf : Fine Q (f a) m') : Fine Q (x >>= f) m :=
  bind (of_ok h hf)

theorem bind_get {f : Machine → Action β} (h : Fine Q (f m) m) : Fine Q (get >>= f) m :=
  bind_ok rfl h

theorem bind_modify {g : Machine → Machine} {f : PUnit → Action β} (h : Fine Q (f ⟨⟩) (g m)) :
    Fine Q (modify g >>= f) m :=
  bind_ok rfl h

end Fine

/-! ## Running machines -/

/-- The innermost frame is `f`, with the shape `σ`; `Γ` are the slots of the other frames `fs`. -/
structure Running (w : World) (n : Nat) (m : Machine) (f : Frame) (fs : List Frame) (G : Layout)
    (E : Env) (σ : Shape) (Γ : List Slot) : Prop where
  frames : m.frames = f :: fs
  has : f.closure.Has w G E
  base : f.base = Γ.length
  calls : Calls w n fs Γ
  values : Holds w n m.values (σ.slots ++ Γ)
  steady : Steady w n (σ.slots ++ Γ) (Decl.excused σ.decl) m.store m.globals m.openCells
  declaring : Declaring w.lineage w.classes m.store.methods.size m.globals σ.decl

/-- A machine that finds the shapes it needs for `n` instructions, with the code in `rs`. -/
def Live (rs : Array Routine) (ℓ : Lineage) (n : Nat) (m : Machine) : Prop :=
  ∃ w f fs G E σ Γ, w.routines = rs ∧ w.lineage = ℓ ∧ Running w n m f fs G E σ Γ ∧
    Safe w.routines n G E f.ip σ

/-- A machine between runs. -/
structure Idle (rs : Array Routine) (ℓ : Lineage) (n : Nat) (m : Machine) : Prop where
  frames : m.frames = []
  values : m.values = []
  openCells : m.openCells = []
  steady : ∃ w : World, w.routines = rs ∧ w.lineage = ℓ ∧
    Steady w n [] none m.store m.globals [] ∧
    Declaring w.lineage w.classes m.store.methods.size m.globals none

/-- A machine after a step: it goes on or is done. -/
def Goes (rs : Array Routine) (ℓ : Lineage) (n : Nat) (m : Machine) : Prop :=
  Live rs ℓ n m ∨ Idle rs ℓ n m

namespace Running

variable {w : World} {n : Nat} {m : Machine} {f : Frame} {fs : List Frame} {G : Layout} {E : Env}
  {σ : Shape} {Γ : List Slot} {k : Kind} {s : List Slot} {d : Option Decl}

theorem goes (R : Running w n m f fs G E σ Γ) (h : Safe w.routines n G E f.ip σ) :
    Goes w.routines w.lineage n m :=
  .inl ⟨w, f, fs, G, E, σ, Γ, rfl, rfl, R, h⟩

theorem succ (R : Running w (n + 1) m f fs G E σ Γ) : Running w n m f fs G E σ Γ :=
  { R with calls := R.calls.succ, values := R.values.succ, steady := R.steady.succ }

theorem weaken {τ : Shape} (R : Running w n m f fs G E σ Γ) (hle : σ.Le τ) :
    Running w n m f fs G E τ Γ where
  frames := R.frames
  has := R.has
  base := R.base
  calls := R.calls
  values := R.values.weaken (List.rel_append hle.1 (slots_refl Γ))
  steady := hle.2 ▸ R.steady.weaken (List.rel_append hle.1 (slots_refl Γ))
  declaring := hle.2 ▸ R.declaring

theorem goto (R : Running w n m f fs G E σ Γ) (p : Nat) :
    Running w n (m.goto p) { f with ip := p } fs G E σ Γ :=
  { R with frames := frames_goto m p R.frames }

theorem length_values (R : Running w n m f fs G E ⟨s, d⟩ Γ) :
    m.values.length = s.length + Γ.length := by
  rw [R.values.length_eq, List.length_append]

/-- The same machine with other temporaries on its stack. -/
theorem replace (top top' : List Slot) (R : Running w n m f fs G E ⟨top ++ s, d⟩ Γ)
    (htop : ∀ t ∈ top, t.shared = false) {vs : List Value} (hvs : Holds w n vs (top' ++ s ++ Γ)) :
    Running w n (m.setValues vs) f fs G E ⟨top' ++ s, d⟩ Γ where
  frames := R.frames
  has := R.has
  base := R.base
  calls := R.calls
  values := by
    rw [values_setValues]
    exact hvs
  steady := by
    have := R.steady
    rw [List.append_assoc] at this ⊢
    exact this.replace htop top'
  declaring := R.declaring

theorem setValues (R : Running w n m f fs G E σ Γ) {vs : List Value}
    (hvs : Holds w n vs (σ.slots ++ Γ)) : Running w n (m.setValues vs) f fs G E σ Γ :=
  { R with
    values := by
      rw [values_setValues]
      exact hvs }

/-- A changed store, with the same classes. -/
theorem setStore (R : Running w n m f fs G E σ Γ) {s : Store}
    (hs : Steady w n (σ.slots ++ Γ) (Decl.excused σ.decl) s m.globals m.openCells)
    (hmethods : s.methods = m.store.methods) :
    Running w n { m with store := s } f fs G E σ Γ :=
  { R with steady := hs, declaring := hmethods ▸ R.declaring }

/-- The same function runs on in another machine, and more is known about the world. -/
theorem evolve {w' : World} {m' : Machine} {p : Nat} {τ : Shape} (R : Running w n m f fs G E σ Γ)
    (hw : w.Le w') (hframes : m'.frames = { f with ip := p } :: fs)
    (hs : Steady w' n (τ.slots ++ Γ) (Decl.excused τ.decl) m'.store m'.globals m'.openCells)
    (hvs : Holds w' n m'.values (τ.slots ++ Γ))
    (hd : Declaring w'.lineage w'.classes m'.store.methods.size m'.globals τ.decl) :
    Running w' n m' { f with ip := p } fs G E τ Γ where
  frames := hframes
  has := R.has.mono hw
  base := R.base
  calls := R.calls.mono hw
  values := hvs
  steady := hs
  declaring := hd

/-- Open cells lead to slots that are there. -/
theorem closeFrom (R : Running w n m f fs G E σ Γ) (slot : Nat) (gs : List Frame) :
    Machine.closeFrom slot { m with frames := gs } = .ok () ({ m with frames := gs }.closed slot) := by
  have hnone : (m.openCells.takeWhile (slot ≤ ·.1)).any (m.stack.size ≤ ·.1) = false := by
    rw [List.any_eq_false]
    intro x hx
    have hlt := R.steady.lt_of_mem ((List.takeWhile_sublist _).subset hx)
    rw [decide_eq_true_eq, size_stack, R.values.length_eq]
    exact Nat.not_le_of_lt hlt
  rw [closeFrom_apply]
  exact if_neg (by rw [hnone]; nofun)

/-! ## The stack -/

theorem uncons {x : Slot} (R : Running w n m f fs G E ⟨x :: s, d⟩ Γ) :
    ∃ v vs, m.values = v :: vs ∧ Fits w n v x.kind ∧ Holds w n vs (s ++ Γ) := by
  have hvs := R.values
  obtain ⟨v, vs, hv, hrest, heq⟩ := List.forall₂_cons_right_iff.mp hvs
  exact ⟨v, vs, heq, hv, hrest⟩

/-- The value below some others. -/
theorem split (top : List Slot) {x : Slot} (R : Running w n m f fs G E ⟨top ++ x :: s, d⟩ Γ) :
    ∃ ws v us, m.values = ws ++ v :: us ∧ Holds w n ws top ∧ Fits w n v x.kind ∧
      Holds w n us (s ++ Γ) := by
  have hvs := R.values
  rw [List.append_assoc] at hvs
  obtain ⟨ws, us, heq, hws, hus⟩ := hvs.split
  obtain ⟨v, vs, hv, hrest, rfl⟩ := List.forall₂_cons_right_iff.mp hus
  exact ⟨ws, v, vs, heq, hws, hv, hrest⟩

section Stack

variable {α : Type} {Q : α → Machine → Prop}

theorem push_apply {v : Value} {x : Slot} (R : Running w n m f fs G E ⟨s, d⟩ Γ)
    (hv : Fits w n v x.kind) {Q : Unit → Machine → Prop}
    (h : ∀ m', Running w n m' f fs G E ⟨x :: s, d⟩ Γ → Q () m') : Fine Q (Machine.push v) m := by
  rw [Fine, Machine.push_apply]
  by_cases hroom : m.values.length < maxStack
  · rw [if_pos hroom]
    exact h _ (R.replace [] [x] (by simp) (.cons hv R.values))
  · rw [if_neg hroom]
    trivial

/-- A push that ends a step. -/
theorem push {v : Value} {x : Slot} (R : Running w n m f fs G E ⟨s, d⟩ Γ) (hv : Fits w n v x.kind)
    (h : Safe w.routines n G E f.ip ⟨x :: s, d⟩) :
    Fine (fun _ => Goes w.routines w.lineage n) (Machine.push v) m :=
  R.push_apply hv fun _ R' => R'.goes h

theorem pop {g : Value → Action α} (R : Running w n m f fs G E ⟨.temp k :: s, d⟩ Γ)
    (h : ∀ v m', Fits w n v k → Running w n m' f fs G E ⟨s, d⟩ Γ → Fine Q (g v) m') :
    Fine Q (Machine.pop >>= g) m := by
  obtain ⟨v, vs, heq, hv, hvs⟩ := R.uncons
  refine .bind_ok (pop_cons heq) (h v _ hv ?_)
  exact R.replace [.temp k] [] (by simp) hvs

theorem popClass {g : Class → Action α} {c : Class}
    (R : Running w n m f fs G E ⟨.temp (.is (.cls c)) :: s, d⟩ Γ)
    (h : ∀ m', Running w n m' f fs G E ⟨s, d⟩ Γ → Fine Q (g c) m') :
    Fine Q (Machine.popClass >>= g) m := by
  refine .bind (R.pop fun v m' hv R' => ?_)
  obtain ⟨rfl, -⟩ := hv
  exact .pure (h m' R')

/-- A value found on the stack is known from then on. -/
theorem peek {g : Value → Action α} {i : Nat} (top : List Slot)
    (R : Running w n m f fs G E ⟨top ++ .temp k :: s, d⟩ Γ) (hi : top.length = i)
    (h : ∀ v, Fits w n v k →
      (∀ k' : Kind, Fits w n v k' → Running w n m f fs G E ⟨top ++ .temp k' :: s, d⟩ Γ) →
        Fine Q (g v) m) :
    Fine Q (Machine.peek i >>= g) m := by
  obtain ⟨ws, v, vs, heq, hws, hv, hrest⟩ := R.split top
  have hpeek : Machine.peek i m = .ok v m := by
    rw [peek_values, heq, ← hi, ← hws.length_eq, List.getElem?_append_right (Nat.le_refl _)]
    simp
  refine .bind_ok hpeek (h v hv fun k' hk' => ?_)
  refine { R with values := ?_, steady := ?_ }
  · rw [heq, List.append_assoc]
    exact List.rel_append hws (.cons hk' hrest)
  · have hsame : ∀ l : List Slot, List.Forall₂ (fun s t => s.shared = true → t = s) l l := fun l =>
      List.forall₂_same.mpr fun _ _ _ => rfl
    exact R.steady.retype
      (List.rel_append (List.rel_append (hsame _) (.cons (by simp) (hsame _))) (hsame _))

end Stack

end Running

end LoxMachine
