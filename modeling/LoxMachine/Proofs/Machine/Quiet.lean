import LoxMachine.Proofs.Machine.Action

/-!
# Quiet actions

Most of what an instruction does happens on the stack, among the globals and in the tables of
classes and objects. Such an action is `Quiet`: whether it succeeds or fails, the machine stays in
the same frames and at the same place in the code, the captured variables stay as they are, and the
stack stays within its bound. This holds on any machine, also for code that no compiler made.

What is left are the actions that read code, that enter or leave a call, and that make or close the
cells of captured variables.
-/

namespace LoxMachine.Machine

/-- However an action ends, the machine is then as `Q` says. -/
def Leaves {α : Type} (Q : Machine → Prop) (x : Action α) (m : Machine) : Prop :=
  match x m with
  | .ok _ m' | .error _ m' => Q m'

/-- The same frames, code and captured variables, on another stack that is not too large. -/
structure Beside (m m' : Machine) : Prop where
  frames : m'.frames = m.frames
  chunks : m'.store.chunks = m.store.chunks
  openCells : m'.openCells = m.openCells
  cells : m'.store.cells = m.store.cells
  stack : m.stack.size ≤ maxStack → m'.stack.size ≤ maxStack

theorem Beside.refl (m : Machine) : m.Beside m :=
  ⟨rfl, rfl, rfl, rfl, id⟩

theorem Beside.trans {m m' m'' : Machine} (h : m.Beside m') (h' : m'.Beside m'') : m.Beside m'' where
  frames := h'.frames.trans h.frames
  chunks := h'.chunks.trans h.chunks
  openCells := h'.openCells.trans h.openCells
  cells := h'.cells.trans h.cells
  stack := h'.stack ∘ h.stack

def Quiet {α : Type} (x : Action α) : Prop :=
  ∀ m, Leaves m.Beside x m

variable {α β : Type} {m : Machine}

theorem Leaves.bind {Q : Machine → Prop} {x : Action α} {f : α → Action β}
    (hok : ∀ a m', x m = .ok a m' → Leaves Q (f a) m')
    (herror : ∀ e m', x m = .error e m' → Q m') : Leaves Q (x >>= f) m := by
  unfold Leaves
  rw [bind_apply]
  cases hx : x m with
  | ok a m' => exact hok a m' hx
  | error e m' => exact herror e m' hx

theorem Leaves.get_bind {Q : Machine → Prop} {f : Machine → Action β} (h : Leaves Q (f m) m) :
    Leaves Q (get >>= f) m :=
  h

theorem Leaves.modify_bind {Q : Machine → Prop} {g : Machine → Machine} {f : PUnit → Action β}
    (h : Leaves Q (f ⟨⟩) (g m)) : Leaves Q (modify g >>= f) m :=
  h

theorem Leaves.mono {P Q : Machine → Prop} {x : Action α} (h : Leaves P x m)
    (hPQ : ∀ m', P m' → Q m') : Leaves Q x m := by
  unfold Leaves at *
  cases hx : x m with
  | ok a m' =>
      rw [hx] at h
      exact hPQ m' h
  | error e m' =>
      rw [hx] at h
      exact hPQ m' h

namespace Quiet

theorem beside {x : Action α} (h : Quiet x) {a : α} {m' : Machine} (hx : x m = .ok a m') :
    m.Beside m' := by
  have := h m
  rwa [Leaves, hx] at this

theorem bind {x : Action α} {f : α → Action β} (hx : Quiet x) (hf : ∀ a, Quiet (f a)) :
    Quiet (x >>= f) := by
  intro m
  have hfirst := hx m
  refine Leaves.bind (fun a m' h => (hf a m').mono fun m'' => (hx.beside h).trans) fun e m' h => ?_
  rwa [Leaves, h] at hfirst

theorem pure (a : α) : Quiet (pure a : Action α) :=
  fun m => .refl m

theorem fail (e : RuntimeError) : Quiet (fail e : Action α) :=
  fun m => .refl m

theorem violate (v : Violation) : Quiet (violate v : Action α) :=
  fun m => .refl m

theorem orViolate (x : Option α) (v : Violation) : Quiet (orViolate x v) := by
  cases x with
  | none => exact violate v
  | some a => exact pure a

theorem get : Quiet (get : Action Machine) :=
  fun m => .refl m

theorem get_bind {f : Machine → Action β} (hf : ∀ m, Quiet (f m)) : Quiet (MonadState.get >>= f) :=
  get.bind hf

theorem modify {g : Machine → Machine} (hg : ∀ m : Machine, m.Beside (g m)) :
    Quiet (modify g : Action PUnit) :=
  hg

theorem ite {c : Prop} [Decidable c] {x y : Action α} (hx : Quiet x) (hy : Quiet y) :
    Quiet (if c then x else y) := by
  split
  · exact hx
  · exact hy

/-! ## The stack -/

theorem push (v : Value) : Quiet (push v) := by
  intro m
  simp only [Leaves, Machine.push, bind_apply, get_apply, ite_apply, modify_apply, fail_apply]
  by_cases hroom : m.stack.size < maxStack
  · rw [if_pos hroom]
    exact ⟨rfl, rfl, rfl, rfl, fun _ => by rw [Array.size_push]; exact hroom⟩
  · rw [if_neg hroom]
    exact .refl m

theorem pop : Quiet pop := by
  refine get_bind fun m => ?_
  cases m.stack.back? with
  | none => exact violate _
  | some v =>
      refine bind (modify fun m => ⟨rfl, rfl, rfl, rfl, fun h => ?_⟩) fun _ => pure v
      rw [Array.size_pop]
      exact Nat.le_trans (Nat.sub_le _ _) h

theorem slotBelow (distance : Nat) : Quiet (slotBelow distance) :=
  get_bind fun _ => ite (pure _) (violate _)

theorem peek (distance : Nat) : Quiet (peek distance) :=
  get_bind fun _ => ite (orViolate _ _) (violate _)

theorem readSlot (slot : Nat) : Quiet (readSlot slot) :=
  get_bind fun _ => orViolate _ _

theorem writeSlot (slot : Nat) (v : Value) : Quiet (writeSlot slot v) := by
  refine get_bind fun _ => ite (modify fun m => ⟨rfl, rfl, rfl, rfl, fun h => ?_⟩) (violate _)
  rw [Array.size_setIfInBounds]
  exact h

theorem truncate (slot : Nat) : Quiet (truncate slot) := by
  refine modify fun m => ⟨rfl, rfl, rfl, rfl, fun h => ?_⟩
  rw [Array.size_shrink]
  exact Nat.le_trans (Nat.min_le_right _ _) h

theorem popClass : Quiet popClass :=
  bind pop fun v => by cases v <;> first | exact pure _ | exact violate _

theorem frame : Quiet frame :=
  get_bind fun _ => orViolate _ _

/-! ## The store -/

/-- Making something that is neither code nor a cell. -/
theorem make {new : Store → α × Store} (hchunks : ∀ s, (new s).2.chunks = s.chunks)
    (hcells : ∀ s, (new s).2.cells = s.cells) : Quiet (make new) :=
  fun m => ⟨rfl, hchunks m.store, rfl, hcells m.store, id⟩

theorem changeStore {change : Store → Store} (hchunks : ∀ s, (change s).chunks = s.chunks)
    (hcells : ∀ s, (change s).cells = s.cells) : Quiet (changeStore change) :=
  fun m => ⟨rfl, hchunks m.store, rfl, hcells m.store, id⟩

theorem method (c : Class) (name : String) : Quiet (method c name) :=
  get_bind fun m => by cases m.store.method? c name <;> first | exact pure _ | exact fail _

theorem bindMethod (c : Class) (name : String) : Quiet (bindMethod c name) :=
  (method c name).bind fun _ => bind pop fun _ =>
    (make (fun _ => rfl) fun _ => rfl).bind fun v => push v

theorem callNative (n : Native) (slot : Nat) : Quiet (callNative n slot) :=
  get_bind fun _ => (truncate slot).bind fun _ => push _

theorem inherit : Quiet inherit :=
  (peek 1).bind fun v => by
    cases v with
    | cls parent => exact bind popClass fun _ => changeStore (fun _ => rfl) fun _ => rfl
    | _ => exact fail _

/-! ## Globals -/

theorem getGlobal (name : String) : Quiet (getGlobal name) :=
  get_bind fun m => by cases m.globals[name]? <;> first | exact push _ | exact fail _

theorem defineGlobal (name : String) : Quiet (defineGlobal name) :=
  bind pop fun _ => modify fun _ => ⟨rfl, rfl, rfl, rfl, id⟩

theorem setGlobal (name : String) : Quiet (setGlobal name) :=
  (peek 0).bind fun _ => get_bind fun _ =>
    ite (modify fun _ => ⟨rfl, rfl, rfl, rfl, id⟩) (fail _)

/-! ## Operators -/

theorem binary (f : Number → Number → Value) : Quiet (binary f) :=
  bind pop fun b => bind pop fun a => by
    cases a <;> cases b <;> first | exact push _ | exact fail _

theorem add : Quiet add :=
  (peek 1).bind fun a => (peek 0).bind fun b => by
    cases a <;> cases b <;> first
      | exact binary _
      | exact bind pop fun _ => bind pop fun _ => push _
      | exact fail _

theorem negate : Quiet negate :=
  bind pop fun v => by cases v <;> first | exact push _ | exact fail _

theorem printTop : Quiet printTop :=
  bind pop fun _ => modify fun _ => ⟨rfl, rfl, rfl, rfl, id⟩

theorem assertTop : Quiet assertTop :=
  bind pop fun v => by
    split
    · exact pure _
    · exact fail _
    · exact fail _

end Quiet

end LoxMachine.Machine
