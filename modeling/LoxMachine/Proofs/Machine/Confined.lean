import Mathlib.Data.List.TakeWhile
import LoxMachine.Proofs.Code.Blocks
import LoxMachine.Proofs.Machine.Success

/-!
# Confined actions

A frame owns the stack from its base on. An action is `Confined` if that is all it works on: it does
the same whatever other values are hidden further down, and leaves those where they are. It asks for
a number of values from the base on and leaves a number of them. This says at once that nothing hidden
is read, written or dropped.

Main statement: `Confined.exec`, an instruction that takes no more than what lies above the base is
confined, if no captured variable is hidden that it goes for.
-/

namespace LoxMachine.Machine

/-- The machine with other values in some positions of its stack. -/
def overlay (hidden : Nat → Option Value) (m : Machine) : Machine :=
  { m with stack := m.stack.mapIdx fun i v => (hidden i).getD v }

/-- The same end of an action on such a machine. -/
def overlaid {α : Type} (hidden : Nat → Option Value) :
    EStateM.Result Fault Machine α → EStateM.Result Fault Machine α
  | .ok a m => .ok a (m.overlay hidden)
  | .error e m => .error e (m.overlay hidden)

/-- On this machine the action does the same whatever is hidden, and leaves `k` values from `base`
on. -/
structure Spares {α : Type} (hidden : Nat → Option Value) (base k : Nat) (x : Action α)
    (m : Machine) : Prop where
  same : x (m.overlay hidden) = overlaid hidden (x m)
  room : match x m with
    | .ok _ m' => base + k ≤ m'.stack.size
    | .error _ m' => base ≤ m'.stack.size

def Confined {α : Type} (hidden : Nat → Option Value) (base k j : Nat) (x : Action α) : Prop :=
  ∀ m : Machine, base + k ≤ m.stack.size → Spares hidden base j x m

section Overlay

variable (hidden : Nat → Option Value) (m : Machine)

@[simp] theorem size_overlay : (m.overlay hidden).stack.size = m.stack.size :=
  Array.size_mapIdx

theorem getElem?_overlay (i : Nat) :
    (m.overlay hidden).stack[i]? = m.stack[i]?.map fun v => (hidden i).getD v :=
  Array.getElem?_mapIdx

theorem getElem?_overlay_of_none {i : Nat} (h : hidden i = none) :
    (m.overlay hidden).stack[i]? = m.stack[i]? := by
  rw [getElem?_overlay, h]
  exact Option.map_id'

end Overlay

/-- The cells of captured variables take over the values in their slots and no others. -/
theorem closeCells_congr {stack stack' : Array Value} {l : List (Nat × Nat)} {s : Store}
    (h : ∀ x ∈ l, stack[x.1]? = stack'[x.1]?) : closeCells stack l s = closeCells stack' l s := by
  induction l generalizing s with
  | nil => rfl
  | cons x l ih =>
      obtain ⟨hx, hl⟩ := List.forall_mem_cons.mp h
      rw [closeCells_cons, closeCells_cons, hx]
      exact ih hl

variable {α β : Type} {hidden : Nat → Option Value} {base k j n : Nat} {m : Machine}

/-- Two stacks are equal if they are so position by position. -/
theorem overlay_eq {m' : Machine} {stack : Array Value} (hm : m' = { m with stack })
    (hstack : ∀ i, stack[i]? = m.stack[i]?.map fun v => (hidden i).getD v) :
    m' = m.overlay hidden := by
  have : stack = (m.overlay hidden).stack :=
    Array.ext_getElem? fun i => (hstack i).trans (getElem?_overlay hidden m i).symm
  rw [hm, this]
  rfl

theorem Spares.bind {x : Action α} {f : α → Action β} (hx : Spares hidden base k x m)
    (hf : ∀ a m', x m = .ok a m' → base + k ≤ m'.stack.size → Spares hidden base j (f a) m') :
    Spares hidden base j (x >>= f) m := by
  obtain ⟨hsame, hroom⟩ := hx
  constructor
  · rw [bind_apply, bind_apply, hsame]
    cases hm : x m with
    | ok a m' =>
        rw [hm] at hroom
        exact (hf a m' hm hroom).same
    | error e m' => rfl
  · rw [bind_apply]
    cases hm : x m with
    | ok a m' =>
        rw [hm] at hroom
        exact (hf a m' hm hroom).room
    | error e m' =>
        rw [hm] at hroom
        exact hroom

theorem Spares.get_bind {f : Machine → Action β} (h : Spares hidden base k (f m) m)
    (hf : f (m.overlay hidden) = f m) : Spares hidden base k (get >>= f) m where
  same := by
    rw [bind_apply, get_apply, bind_apply, get_apply]
    dsimp only
    rw [hf]
    exact h.same
  room := h.room

namespace Confined

theorem bind {x : Action α} {f : α → Action β} (hx : Confined hidden base k j x)
    (hf : ∀ a, Confined hidden base j n (f a)) : Confined hidden base k n (x >>= f) :=
  fun m h => (hx m h).bind fun a m' _ h' => hf a m' h'

theorem weaken {x : Action α} (hx : Confined hidden base k j x) {l l' : Nat} (hl : k ≤ l)
    (hl' : l' ≤ j) : Confined hidden base l l' x := by
  intro m h
  obtain ⟨hsame, hroom⟩ := hx m (by omega)
  refine ⟨hsame, ?_⟩
  cases hm : x m with
  | ok a m' =>
      rw [hm] at hroom
      dsimp only at hroom ⊢
      omega
  | error e m' =>
      rw [hm] at hroom
      exact hroom

theorem get_bind {f : Machine → Action β} (h : ∀ m, Confined hidden base k j (f m))
    (hf : ∀ m, f (m.overlay hidden) = f m) : Confined hidden base k j (get >>= f) :=
  fun m hm => (h m m hm).get_bind (hf m)

/-! ## Actions that leave the stack alone -/

theorem pure (a : α) : Confined hidden base k k (pure a) :=
  fun _ h => ⟨rfl, h⟩

theorem fail (e : RuntimeError) : Confined hidden base k j (fail e : Action α) :=
  fun _ h => ⟨rfl, Nat.le_of_add_right_le h⟩

theorem violate (v : Violation) : Confined hidden base k j (violate v : Action α) :=
  fun _ h => ⟨rfl, Nat.le_of_add_right_le h⟩

theorem orViolate (x : Option α) (v : Violation) : Confined hidden base k k (orViolate x v) := by
  cases x with
  | none => exact violate v
  | some a => exact pure a

theorem ite {c : Prop} [Decidable c] {x y : Action α} (hx : Confined hidden base k j x)
    (hy : Confined hidden base k j y) : Confined hidden base k j (if c then x else y) := by
  split
  · exact hx
  · exact hy

theorem alter {g : Machine → Machine} (hstack : ∀ m, (g m).stack = m.stack)
    (hg : ∀ m, g (m.overlay hidden) = (g m).overlay hidden) :
    Confined hidden base k k (modify g) := by
  intro m h
  refine ⟨?_, ?_⟩
  · rw [modify_apply, modify_apply, hg]
    rfl
  · change base + k ≤ (g m).stack.size
    rwa [hstack]

theorem make (new : Store → α × Store) : Confined hidden base k k (make new) :=
  fun _ h => ⟨rfl, h⟩

theorem changeStore (change : Store → Store) : Confined hidden base k k (changeStore change) :=
  alter (fun _ => rfl) fun _ => rfl

theorem frame : Confined hidden base k k frame :=
  get_bind (fun _ => orViolate _ _) fun _ => rfl

theorem moveTo (ip : Nat) : Confined hidden base k k (moveTo ip) := by
  refine get_bind (fun m => ?_) fun _ => rfl
  cases m.frames with
  | nil => exact violate _
  | cons f fs => exact alter (fun _ => rfl) fun _ => rfl

theorem capture (slot : Nat) : Confined hidden base k k (capture slot) := by
  refine get_bind (fun m => ?_) fun _ => rfl
  cases m.openCells.lookup slot with
  | some cell => exact pure cell
  | none =>
      refine (make _).bind fun cell => bind (alter (fun _ => ?_) fun _ => ?_) fun _ => pure cell
      all_goals rfl

theorem captureAll (offset : Nat) (cs : List Capture) (cells : Array Nat) :
    Confined hidden base k k (captureAll offset cs cells) := by
  induction cs generalizing offset cells with
  | nil => exact pure cells
  | cons c cs ih =>
      refine (moveTo _).bind fun _ => frame.bind fun f => ?_
      exact ite ((capture _).bind fun _ => ih _ _) ((orViolate _ _).bind fun _ => ih _ _)

theorem method (c : Class) (name : String) : Confined hidden base k k (method c name) := by
  refine get_bind (fun m => ?_) fun _ => rfl
  cases m.store.method? c name with
  | some g => exact pure g
  | none => exact fail _

/-! ## The stack -/

theorem readSlot {slot : Nat} (hslot : hidden slot = none) :
    Confined hidden base k k (readSlot slot) := by
  refine get_bind (fun m => orViolate _ _) fun m => ?_
  rw [getElem?_overlay_of_none _ _ hslot]

theorem writeSlot {slot : Nat} (hslot : hidden slot = none) (v : Value) :
    Confined hidden base k k (writeSlot slot v) := by
  intro m h
  simp only [Machine.writeSlot]
  refine Spares.get_bind ?_ (by rw [size_overlay])
  refine ite (fun m h => ⟨?_, ?_⟩) (violate _) m h
  · rw [modify_apply, modify_apply, overlaid]
    refine congrArg _ (overlay_eq (m := { m with stack := m.stack.setIfInBounds slot v }) rfl
      fun i => ?_)
    rw [Array.getElem?_setIfInBounds, Array.getElem?_setIfInBounds, size_overlay, getElem?_overlay]
    split
    · rename_i heq
      rw [← heq, hslot]
      split <;> rfl
    · rfl
  · change base + _ ≤ (m.stack.setIfInBounds slot v).size
    rwa [Array.size_setIfInBounds]

theorem truncate {slot : Nat} (hslot : base ≤ slot) : Confined hidden base k 0 (truncate slot) := by
  intro m h
  refine ⟨?_, ?_⟩
  · rw [Machine.truncate, modify_apply, modify_apply, overlaid]
    refine congrArg _ (overlay_eq (m := { m with stack := m.stack.shrink slot }) rfl fun i => ?_)
    simp only [Array.shrink_eq_take, Array.take_eq_extract, Array.getElem?_extract, size_overlay,
      getElem?_overlay, Nat.zero_add]
    split <;> rfl
  · change base + 0 ≤ (m.stack.shrink slot).size
    rw [Array.size_shrink]
    omega

/-- The slot found is one from the base on. -/
theorem slotBelow_bind {distance : Nat} {f : Nat → Action β} (hk : distance < k)
    (hf : ∀ slot, base ≤ slot → Confined hidden base k j (f slot)) :
    Confined hidden base k j (slotBelow distance >>= f) := by
  intro m h
  have hslot (m : Machine) (h : base + k ≤ m.stack.size) :
      slotBelow distance m = .ok (m.stack.size - 1 - distance) m := by
    rw [slotBelow_apply, if_pos (by rw [← size_stack]; omega), ← size_stack]
  refine Spares.bind (k := k) ⟨?_, ?_⟩ fun slot m' heq h' => ?_
  · rw [hslot m h, hslot _ (by rwa [size_overlay]), size_overlay]
    rfl
  · rw [hslot m h]
    exact h
  · rw [hslot m h] at heq
    cases heq
    exact hf _ (by omega) m h

/-! ## Calls -/

theorem call (c : Closure) {count : Nat} (hk : count < k) :
    Confined hidden base k k (call c count) := by
  have henter : Confined hidden base k k (slotBelow count >>= fun slot => (do
      if (← get).frames.length < maxFrames then
        modify fun m => { m with frames := ⟨c, 0, slot⟩ :: m.frames }
      else Machine.fail .stackOverflow : Action Unit)) := by
    refine slotBelow_bind hk fun slot _ => get_bind (fun m => ?_) fun _ => rfl
    refine ite (alter ?_ ?_) (fail _)
    all_goals exact fun _ => rfl
  exact ite ((fail _).bind fun _ => henter) henter

theorem invokeFrom (c : Class) (name : String) {count : Nat} (hk : count < k) :
    Confined hidden base k 0 (invokeFrom c name count) :=
  (method c name).bind fun g => (call g hk).weaken (Nat.le_refl _) (Nat.zero_le _)

/-! ## The running frame -/

section Frame

variable {f : Frame} {fs : List Frame} {q : Nat} (hframes : m.frames = f :: fs)
  (hm : base + k ≤ m.stack.size)
include hframes hm

/-- An instruction that goes on behind its operands. -/
theorem moveTo_bind {x : Unit → Action Unit} (h : Spares hidden base 0 (x ()) (m.goto q)) :
    Spares hidden base 0 (Machine.moveTo q >>= x) m := by
  have hmoved : Machine.moveTo q m = .ok () (m.goto q) := by
    have h0 : m = m.goto f.ip := by
      simp only [goto, hframes, List.modifyHead_cons]
      rw [← hframes]
    conv_lhs => rw [h0]
    exact moveTo_goto hframes _ _
  refine (moveTo q m hm).bind fun _ m' heq _ => ?_
  cases hmoved.symm.trans heq
  exact h

/-- An instruction that then looks at the frame it belongs to. -/
theorem frame_bind {g : Frame → Action Unit}
    (h : Spares hidden base 0 (g { f with ip := q }) (m.goto q)) :
    Spares hidden base 0 (Machine.moveTo q >>= fun _ => Machine.frame >>= g) m := by
  refine moveTo_bind hframes hm ((frame (m.goto q) hm).bind fun f' m' heq _ => ?_)
  cases (frame_goto hframes q).symm.trans heq
  exact h

theorem moveTo_then {x : Unit → Action Unit} (hx : Confined hidden base k j (x ())) :
    Spares hidden base 0 (Machine.moveTo q >>= x) m :=
  moveTo_bind hframes hm (hx.weaken (Nat.le_refl _) (Nat.zero_le _) _ hm)

theorem frame_then {g : Frame → Action Unit}
    (hg : Confined hidden base k j (g { f with ip := q })) :
    Spares hidden base 0 (Machine.moveTo q >>= fun _ => Machine.frame >>= g) m :=
  frame_bind hframes hm (hg.weaken (Nat.le_refl _) (Nat.zero_le _) _ hm)

end Frame

section Stack

variable (hbelow : ∀ i, base ≤ i → hidden i = none)
include hbelow

theorem push (v : Value) : Confined hidden base k (k + 1) (push v) := by
  intro m h
  simp only [Machine.push]
  refine Spares.get_bind ?_ (by rw [size_overlay])
  by_cases hroom : m.stack.size < maxStack
  · rw [if_pos hroom]
    refine ⟨?_, ?_⟩
    · rw [modify_apply, modify_apply, overlaid]
      refine congrArg _ (overlay_eq (m := { m with stack := m.stack.push v }) rfl fun i => ?_)
      rw [Array.getElem?_push, Array.getElem?_push, size_overlay, getElem?_overlay]
      split
      · rename_i heq
        rw [heq, hbelow _ (by omega)]
        rfl
      · rfl
    · change base + (k + 1) ≤ (m.stack.push v).size
      rw [Array.size_push]
      omega
  · rw [if_neg hroom]
    exact fail _ m h

theorem pop : Confined hidden base (k + 1) k pop := by
  intro m h
  have hback : (m.overlay hidden).stack.back? = m.stack.back? := by
    rw [Array.back?_eq_getElem?, Array.back?_eq_getElem?, size_overlay]
    exact getElem?_overlay_of_none _ _ (hbelow _ (by omega))
  refine Spares.get_bind ?_ (by rw [hback])
  obtain ⟨v, hv⟩ : ∃ v, m.stack.back? = some v := by
    rw [Array.back?_eq_getElem?]
    exact ⟨_, Array.getElem?_eq_getElem (by omega)⟩
  rw [hv]
  refine ⟨?_, ?_⟩
  · change EStateM.Result.ok v _ = EStateM.Result.ok v _
    refine congrArg _ (overlay_eq (m := { m with stack := m.stack.pop }) rfl fun i => ?_)
    rw [Array.getElem?_pop, Array.getElem?_pop, size_overlay, getElem?_overlay]
    split <;> rfl
  · change base + k ≤ m.stack.pop.size
    rw [Array.size_pop]
    omega

theorem peek {distance : Nat} (hk : distance < k) : Confined hidden base k k (peek distance) := by
  intro m h
  have hvalue : (m.overlay hidden).stack[m.stack.size - 1 - distance]? =
      m.stack[m.stack.size - 1 - distance]? :=
    getElem?_overlay_of_none _ _ (hbelow _ (by omega))
  simp only [Machine.peek]
  refine Spares.get_bind ?_ (by rw [size_overlay, hvalue])
  exact ite (orViolate _ _) (violate _) m h

theorem popClass : Confined hidden base (k + 1) k popClass :=
  (pop hbelow).bind fun v => by cases v <;> first | exact pure _ | exact violate _

theorem bindMethod (c : Class) (name : String) :
    Confined hidden base (k + 1) (k + 1) (bindMethod c name) :=
  (method c name).bind fun _ => (pop hbelow).bind fun _ => (make _).bind fun v => push hbelow v

theorem binary (f : Number → Number → Value) : Confined hidden base 2 0 (binary f) :=
  (pop hbelow).bind fun b => (pop hbelow).bind fun a => by
    cases a <;> cases b <;> first
      | exact (push hbelow _).weaken (Nat.le_refl _) (Nat.zero_le _)
      | exact fail _

theorem add : Confined hidden base 2 0 add :=
  (peek hbelow (by decide)).bind fun a => (peek hbelow (by decide)).bind fun b => by
    cases a <;> cases b <;> first
      | exact binary hbelow _
      | exact (pop hbelow).bind fun _ => (pop hbelow).bind fun _ =>
          (push hbelow _).weaken (Nat.le_refl _) (Nat.zero_le _)
      | exact fail _

theorem operator {op : Opcode} (hop : op.IsOperator) :
    Confined hidden base op.takes 0 (execute op) := by
  cases op with
  | greater | less | subtract | multiply | divide => exact binary hbelow _
  | add => exact add hbelow
  | equal =>
      refine (pop hbelow).bind fun b => (pop hbelow).bind fun a => ?_
      exact (push hbelow _).weaken (Nat.le_refl _) (Nat.zero_le _)
  | not =>
      refine (pop hbelow).bind fun v => ?_
      exact (push hbelow _).weaken (Nat.le_refl _) (Nat.zero_le _)
  | negate =>
      refine (pop hbelow).bind fun v => ?_
      cases v <;> first
        | exact (push hbelow _).weaken (Nat.le_refl _) (Nat.zero_le _)
        | exact fail _
  | print => exact (pop hbelow).bind fun v => alter (fun _ => rfl) fun _ => rfl
  | assert =>
      refine (pop hbelow).bind fun v => ?_
      split
      · exact pure _
      · exact fail _
      · exact fail _
  | _ => cases hop

/-! ## Calls -/

theorem construct (c : Class) {slot count : Nat} (hslot : base ≤ slot) (hk : count < k) :
    Confined hidden base k k (construct c slot count) := by
  refine (make _).bind fun o => (writeSlot (hbelow slot hslot) _).bind fun _ => ?_
  refine get_bind (fun m => ?_) fun _ => rfl
  cases m.store.method? c initName with
  | some g => exact call g hk
  | none =>
      refine ite ?_ ?_
      · exact fail _
      · exact pure _

theorem callNative (native : Native) {slot : Nat} (hslot : base ≤ slot) :
    Confined hidden base k 0 (callNative native slot) := by
  refine get_bind (fun m => ?_) fun m => ?_
  · refine (truncate hslot).bind fun _ => ?_
    exact (push hbelow _).weaken (Nat.le_refl _) (Nat.zero_le _)
  · have harguments : (m.overlay hidden).stack.extract (slot + 1) = m.stack.extract (slot + 1) := by
      refine Array.ext_getElem? fun i => ?_
      rw [Array.getElem?_extract, Array.getElem?_extract, size_overlay,
        getElem?_overlay_of_none _ _ (hbelow _ (by omega))]
    rw [harguments]
    rfl

theorem callValue (callee : Value) {count : Nat} (hk : count < k) :
    Confined hidden base k 0 (callValue callee count) := by
  refine slotBelow_bind hk fun slot hslot => ?_
  cases callee with
  | closure c => exact (call c hk).weaken (Nat.le_refl _) (Nat.zero_le _)
  | bound id receiver g =>
      refine (writeSlot (hbelow slot hslot) _).bind fun _ => ?_
      exact (call g hk).weaken (Nat.le_refl _) (Nat.zero_le _)
  | cls c => exact (construct hbelow c hslot hk).weaken (Nat.le_refl _) (Nat.zero_le _)
  | native native => exact callNative hbelow native hslot
  | _ => exact fail _

theorem invoke (name : String) {count : Nat} (hk : count < k) :
    Confined hidden base k 0 (invoke name count) := by
  refine (peek hbelow hk).bind fun v => ?_
  cases v with
  | object o =>
      refine get_bind (fun m => ?_) fun _ => rfl
      cases m.store.field? o name with
      | some v =>
          refine slotBelow_bind hk fun slot hslot => ?_
          exact (writeSlot (hbelow slot hslot) _).bind fun _ => callValue hbelow v hk
      | none => exact invokeFrom o.cls name hk
  | _ => exact fail _

/-! ## Captured variables -/

theorem closeFrom {slot : Nat} (hslot : base ≤ slot) :
    Confined hidden base k k (closeFrom slot) := by
  intro m h
  have hstore : closeCells (m.overlay hidden).stack (m.openCells.takeWhile (slot ≤ ·.1)) m.store =
      closeCells m.stack (m.openCells.takeWhile (slot ≤ ·.1)) m.store := by
    refine closeCells_congr fun x hx => getElem?_overlay_of_none _ _ (hbelow _ ?_)
    have hx := List.mem_takeWhile_imp (p := fun y : Nat × Nat => decide (slot ≤ y.1)) hx
    exact Nat.le_trans hslot (of_decide_eq_true hx)
  have hclosed : (m.overlay hidden).closed slot = (m.closed slot).overlay hidden := by
    rw [closed, closed]
    change Machine.mk (closeCells (m.overlay hidden).stack (m.openCells.takeWhile _) m.store) .. = _
    rw [hstore]
    rfl
  refine ⟨?_, ?_⟩
  · rw [closeFrom_apply, closeFrom_apply, hclosed, size_overlay]
    change (if (m.openCells.takeWhile _).any _ then _ else _) = _
    split <;> rfl
  · rw [closeFrom_apply]
    by_cases hany : (m.openCells.takeWhile (slot ≤ ·.1)).any (m.stack.size ≤ ·.1)
    · rw [if_pos hany]
      exact Nat.le_of_add_right_le h
    · rw [if_neg hany]
      exact h

theorem closeUpvalue : Confined hidden base 1 0 closeUpvalue :=
  slotBelow_bind Nat.one_pos fun _ hslot => (closeFrom hbelow hslot).bind fun _ =>
    (pop hbelow).bind fun _ => pure _

/-! ## Instructions -/

section Exec

variable {f : Frame} {fs : List Frame}

theorem leave (hframes : m.frames = f :: fs) (hbase : base ≤ f.base)
    (hm : base + 1 ≤ m.stack.size) : Spares hidden base 0 leave m := by
  refine Spares.bind (pop hbelow (k := 0) m hm) fun v m' heq hroom => ?_
  obtain ⟨vs, -, rfl⟩ := pop_eq_ok heq
  refine Spares.get_bind ?_ rfl
  rw [frames_setValues, hframes]
  refine bind (j := 0) (alter ?_ ?_) (fun _ => (closeFrom hbelow hbase).bind fun _ =>
    (truncate hbase).bind fun _ => ?_) _ hroom
  · exact fun _ => rfl
  · exact fun _ => rfl
  · exact ite ((push hbelow v).weaken (Nat.le_refl _) (Nat.zero_le _)) (pure _)

/-- An instruction works on what lies from the base on, if there is as much as it takes. A captured
variable that it goes for must not be hidden. -/
theorem exec {ins : Instr} {q : Nat} (hframes : m.frames = f :: fs) (hbase : base ≤ f.base)
    (hm : base + ins.pops ≤ m.stack.size) (hop : ∀ op, ins = .operator op → op.IsOperator)
    (hcell : ∀ i cell slot, ins = .getUpvalue i ∨ ins = .setUpvalue i →
      f.closure.cells[i]? = some cell → m.store.cells[cell]? = some (.inSlot slot) →
      hidden slot = none) : Spares hidden base 0 (ins.exec q) m := by
  have hlocal (n : Nat) : hidden (f.base + n) = none := hbelow _ (by omega)
  cases ins with
  | push v => exact moveTo_then hframes hm (push hbelow v)
  | pop => exact moveTo_then hframes hm ((pop hbelow).bind fun _ => pure _)
  | getLocal n =>
      exact frame_then hframes hm ((readSlot (hlocal n)).bind fun v => push hbelow v)
  | setLocal n =>
      exact frame_then hframes hm ((peek hbelow Nat.one_pos).bind fun v => writeSlot (hlocal n) v)
  | getGlobal name =>
      refine moveTo_then (j := 1) hframes hm (get_bind (fun m => ?_) fun _ => rfl)
      cases m.globals[name]? with
      | some v => exact push hbelow v
      | none => exact fail _
  | defineGlobal name =>
      exact moveTo_then hframes hm ((pop hbelow).bind fun _ => alter (fun _ => rfl) fun _ => rfl)
  | setGlobal name =>
      refine moveTo_then (j := 1) hframes hm ((peek hbelow Nat.one_pos).bind fun v => ?_)
      refine get_bind (fun m => ite (alter ?_ ?_) (fail _)) fun _ => rfl
      all_goals exact fun _ => rfl
  | getUpvalue i =>
      refine frame_bind hframes hm ((orViolate _ _ (m.goto q) hm).bind fun cell m' heq hroom => ?_)
      obtain ⟨hi, rfl⟩ := orViolate_eq_ok heq
      refine Spares.get_bind ?_ rfl
      rw [store_goto]
      cases hc : m.store.cells[cell]? with
      | none => exact violate _ _ hroom
      | some c =>
          cases c with
          | closed v => exact (push hbelow v).weaken (Nat.le_refl _) (Nat.zero_le _) _ hroom
          | inSlot slot =>
              refine (readSlot (hcell i cell slot (.inl rfl) hi hc)).bind (fun v => ?_) _ hroom
              exact (push hbelow v).weaken (Nat.le_refl _) (Nat.zero_le _)
  | setUpvalue i =>
      refine frame_bind hframes hm ((orViolate _ _ (m.goto q) hm).bind fun cell m' heq hroom => ?_)
      obtain ⟨hi, rfl⟩ := orViolate_eq_ok heq
      refine (peek hbelow Nat.one_pos _ hroom).bind fun v m' heq hroom => ?_
      obtain ⟨-, rfl⟩ := peek_eq_ok heq
      refine Spares.get_bind ?_ rfl
      rw [store_goto]
      cases hc : m.store.cells[cell]? with
      | none => exact violate _ _ hroom
      | some c =>
          cases c with
          | closed old => exact (changeStore _).weaken (Nat.le_refl _) (Nat.zero_le _) _ hroom
          | inSlot slot =>
              have hslot := hcell i cell slot (.inr rfl) hi hc
              exact (writeSlot hslot v).weaken (Nat.le_refl _) (Nat.zero_le _) _ hroom
  | getProperty name =>
      refine (peek hbelow Nat.one_pos).bind (fun v => ?_) m hm
      cases v with
      | object o =>
          refine (moveTo q).bind fun _ => get_bind (fun m => ?_) fun _ => rfl
          cases m.store.field? o name with
          | some v =>
              refine (pop hbelow).bind fun _ => ?_
              exact (push hbelow v).weaken (Nat.le_refl _) (Nat.zero_le _)
          | none => exact (bindMethod hbelow o.cls name).weaken (Nat.le_refl _) (Nat.zero_le _)
      | _ => exact fail _
  | setProperty name =>
      refine (peek hbelow Nat.one_lt_two).bind (fun v => ?_) m hm
      cases v with
      | object o =>
          refine (moveTo q).bind fun _ => (pop hbelow).bind fun v => ?_
          refine (changeStore _).bind fun _ => (pop hbelow).bind fun _ => ?_
          exact (push hbelow v).weaken (Nat.le_refl _) (Nat.zero_le _)
      | _ => exact fail _
  | getSuper name =>
      exact moveTo_then hframes hm ((popClass hbelow).bind fun c => bindMethod hbelow c name)
  | operator op => exact moveTo_then hframes hm (operator hbelow (hop op rfl))
  | jump target | loop target => exact moveTo target m hm
  | jumpIfFalse target =>
      refine moveTo_then hframes hm ((peek hbelow Nat.one_pos).bind fun v => ite ?_ (pure _))
      exact moveTo target
  | call n =>
      exact moveTo_then hframes hm ((peek hbelow (Nat.lt_succ_self n)).bind fun v =>
        callValue hbelow v (Nat.lt_succ_self n))
  | invoke name n => exact moveTo_then hframes hm (invoke hbelow name (Nat.lt_succ_self n))
  | superInvoke name n =>
      exact moveTo_then hframes hm
        ((popClass hbelow).bind fun c => invokeFrom c name (Nat.lt_succ_self n))
  | closure g cs =>
      exact moveTo_then hframes hm ((captureAll _ cs _).bind fun cells => (make _).bind fun c =>
        push hbelow _)
  | closeUpvalue => exact moveTo_then hframes hm (closeUpvalue hbelow)
  | ret => exact moveTo_bind hframes hm (leave hbelow (frames_goto m q hframes) hbase hm)
  | makeClass name => exact moveTo_then hframes hm ((make _).bind fun c => push hbelow _)
  | inherit =>
      refine moveTo_then (j := 1) hframes hm ((peek hbelow Nat.one_lt_two).bind fun v => ?_)
      cases v with
      | cls parent => exact (popClass hbelow).bind fun c => changeStore _
      | _ => exact fail _
  | method name =>
      refine moveTo_then (j := 1) hframes hm ((pop hbelow).bind fun v => ?_)
      cases v with
      | closure g =>
          refine (peek hbelow Nat.one_pos).bind fun v => ?_
          cases v with
          | cls c => exact changeStore _
          | _ => exact violate _
      | _ => exact violate _

end Exec

end Stack

end Confined

end LoxMachine.Machine
