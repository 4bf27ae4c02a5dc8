import Mathlib.Data.List.TakeWhile
import LoxMachine.Proofs.Machine.Success
import LoxMachine.Proofs.Machine.Quiet
import LoxMachine.Proofs.Typing.Safety

/-!
# What no code can break

Code that no compiler made may pop what belongs to other calls, capture slots beyond the stack, and
end in the middle of an instruction. What holds of the machine all the same is `Intact`: the stack
and the frames stay within their bounds, the lowest frame owns the whole stack, and the list of open
cells is in order and says of each cell which slot it is in. Every action keeps this, whether it
succeeds or not, as long as there is a frame to work in (`Working`); only `leave` may take the last
frame away, and then nothing else is left either.

Main statement: `History.intact_throughout`, a machine is intact after any texts, functions made by hand and
failures, and between two runs nothing is on its stack, in its frames or open.
-/

namespace LoxMachine

open Machine

namespace Machine

/-- What holds of a machine at any time, whatever code it runs. -/
structure Intact (m : Machine) : Prop where
  stack : m.stack.size ≤ maxStack
  frames : m.frames.length ≤ maxFrames
  ground : ∀ f, m.frames.getLast? = some f → f.base = 0
  descending : Descending m.openCells
  opened : ∀ slot c : Nat, (slot, c) ∈ m.openCells → m.store.cells[c]? = some (.inSlot slot)

example : maxStack = 16384 ∧ maxFrames = 64 := ⟨rfl, rfl⟩

/-- An intact machine that executes something. -/
structure Working (m : Machine) : Prop extends m.Intact where
  active : m.frames ≠ []

/-- Nothing of a run is left. -/
structure AtRest (m : Machine) : Prop where
  stack : m.stack = #[]
  frames : m.frames = []
  openCells : m.openCells = []

variable {α β : Type} {m m' : Machine}

theorem AtRest.intact (h : m.AtRest) : m.Intact where
  stack := by
    rw [h.stack]
    exact Nat.zero_le _
  frames := by
    rw [h.frames]
    exact Nat.zero_le _
  ground f hf := by
    rw [h.frames] at hf
    cases hf
  descending := by
    rw [h.openCells]
    exact .nil
  opened slot c hmem := by
    rw [h.openCells] at hmem
    cases hmem

theorem atRest_reset (m : Machine) : m.reset.AtRest :=
  ⟨rfl, rfl, rfl⟩

theorem Beside.intact (h : m.Beside m') (hm : m.Intact) : m'.Intact where
  stack := h.stack hm.stack
  frames := h.frames ▸ hm.frames
  ground := h.frames ▸ hm.ground
  descending := h.openCells ▸ hm.descending
  opened := by
    rw [h.openCells, h.cells]
    exact hm.opened

theorem Beside.working (h : m.Beside m') (hm : m.Working) : m'.Working :=
  { h.intact hm.toIntact with active := h.frames ▸ hm.active }

/-! ## Actions of a working machine -/

/-- An action leaves a working machine so, whether it succeeds or not. -/
def KeepsWorking (x : Action α) : Prop :=
  ∀ m : Machine, m.Working → Leaves Working x m

theorem Quiet.keeps {x : Action α} (h : Quiet x) : KeepsWorking x :=
  fun m hm => (h m).mono fun _ hb => hb.working hm

namespace KeepsWorking

theorem of_ok {x : Action α} (h : KeepsWorking x) (hm : m.Working) {a : α} (hx : x m = .ok a m') :
    m'.Working := by
  have := h m hm
  rwa [Leaves, hx] at this

theorem of_error {x : Action α} (h : KeepsWorking x) (hm : m.Working) {e : Fault}
    (hx : x m = .error e m') : m'.Working := by
  have := h m hm
  rwa [Leaves, hx] at this

theorem bind {x : Action α} {f : α → Action β} (hx : KeepsWorking x)
    (hf : ∀ a, KeepsWorking (f a)) : KeepsWorking (x >>= f) :=
  fun _ hm => Leaves.bind (fun a m' h => hf a m' (hx.of_ok hm h)) fun _ _ h => hx.of_error hm h

/-! ### Reading code -/

theorem readByte : KeepsWorking readByte := by
  intro m hm
  cases hframes : m.frames with
  | nil => exact absurd hframes hm.active
  | cons f fs =>
      simp only [Leaves, Machine.readByte, bind_apply, get_apply, hframes]
      cases (m.store.chunk f.closure.function).byte? f.ip with
      | none => exact hm
      | some b =>
          have hlength := hm.frames
          have hground := hm.ground
          rw [hframes] at hlength hground
          refine { hm with frames := hlength, ground := fun g hg => ?_, active := List.cons_ne_nil _ _ }
          cases fs with
          | nil =>
              obtain rfl := Option.some.inj hg
              exact hground f rfl
          | cons f' fs => exact hground g hg

theorem moveTo (ip : Nat) : KeepsWorking (moveTo ip) := by
  intro m hm
  cases hframes : m.frames with
  | nil => exact absurd hframes hm.active
  | cons f fs =>
      have hlength := hm.frames
      have hground := hm.ground
      rw [hframes] at hlength hground
      simp only [Leaves, Machine.moveTo, bind_apply, get_apply, hframes, modify_apply]
      refine { hm with frames := hlength, ground := fun g hg => ?_, active := List.cons_ne_nil _ _ }
      cases fs with
      | nil =>
          obtain rfl := Option.some.inj hg
          exact hground f rfl
      | cons f' fs => exact hground g hg

theorem readDistance : KeepsWorking readDistance :=
  bind readByte fun _ => bind readByte fun _ => (Quiet.pure _).keeps

theorem readConstant : KeepsWorking readConstant :=
  bind readByte fun _ => (Quiet.frame.bind fun _ => .get_bind fun _ => .orViolate _ _).keeps

theorem readName : KeepsWorking readName :=
  bind readConstant fun v => by
    cases v <;> first | exact (Quiet.pure _).keeps | exact (Quiet.violate _).keeps

theorem readLocal : KeepsWorking readLocal :=
  bind readByte fun _ => (Quiet.frame.bind fun _ => .pure _).keeps

theorem readCell : KeepsWorking readCell :=
  bind readByte fun _ => (Quiet.frame.bind fun _ => .orViolate _ _).keeps

/-! ### Captured variables -/

theorem capture (slot : Nat) : KeepsWorking (capture slot) := by
  intro m hm
  rw [Leaves, capture_apply]
  dsimp only
  rw [captured]
  cases hlookup : m.openCells.lookup slot with
  | some c => exact hm
  | none =>
      have hnew (c : Nat) : (slot, c) ∉ m.openCells := not_mem_of_lookup hlookup
      refine { hm with descending := hm.descending.insertCell hnew, opened := fun slot' c hmem => ?_ }
      rcases mem_insertCell.mp hmem with heq | hmem
      · obtain ⟨rfl, rfl⟩ := Prod.mk.inj heq
        exact Array.getElem?_push_size
      · have hc := hm.opened slot' c hmem
        exact (Array.getElem?_push_lt (Array.getElem?_eq_some_iff.mp hc).1).trans
          ((Array.getElem?_eq_getElem _).symm.trans hc)

theorem getUpvalue : KeepsWorking getUpvalue :=
  bind readCell fun cell => Quiet.keeps <| .get_bind fun m => by
    split
    · exact .push _
    · exact (Quiet.readSlot _).bind fun _ => .push _
    · exact .violate _

/-- Assigning to a captured variable changes no open cell. -/
theorem setUpvalue : KeepsWorking setUpvalue := by
  refine bind readCell fun cell => (Quiet.peek 0).keeps.bind fun v m hm => .get_bind ?_
  split
  · rename_i old hcell
    refine { hm with opened := fun slot c hmem => ?_ }
    have hc := hm.opened slot c hmem
    refine (Array.getElem?_setIfInBounds_ne fun heq => ?_).trans hc
    rw [heq, hc] at hcell
    cases hcell
  · exact (Quiet.writeSlot _ _).keeps m hm
  · exact (Quiet.violate _).keeps m hm

theorem readCaptures (n : Nat) (cells : Array Nat) : KeepsWorking (readCaptures n cells) := by
  induction n generalizing cells with
  | zero => exact (Quiet.pure _).keeps
  | succ n ih =>
      refine bind readByte fun source => bind readByte fun index => Quiet.frame.keeps.bind fun f => ?_
      split
      · exact (capture _).bind fun _ => ih _
      · exact (Quiet.orViolate _ _).keeps.bind fun _ => ih _

theorem makeClosure : KeepsWorking makeClosure :=
  bind readConstant fun v => by
    cases v with
    | function f =>
        exact (readCaptures _ _).bind fun _ =>
          ((Quiet.make (fun _ => rfl) fun _ => rfl).bind fun _ => .push _).keeps
    | _ => exact (Quiet.violate _).keeps

end KeepsWorking

/-- Closing cells leaves those below the slot as they are. -/
theorem Intact.closed (h : m.Intact) (slot : Nat) : (m.closed slot).Intact where
  stack := h.stack
  frames := h.frames
  ground := h.ground
  descending := h.descending.dropWhile
  opened slot' c hmem := by
    obtain ⟨hmem, hbelow⟩ := h.descending.mem_dropWhile.mp hmem
    have hc := h.opened slot' c hmem
    refine (closeCells_of_not_mem fun slot'' habove => ?_).trans hc
    obtain ⟨hmem', hge⟩ := h.descending.mem_takeWhile.mp habove
    have hc' := h.opened slot'' c hmem'
    rw [hc] at hc'
    cases hc'
    exact Nat.not_lt_of_le hge hbelow

/-- Whether or not each open cell has a value to close it with. -/
theorem leaves_closeFrom {Q : Machine → Prop} {slot : Nat} (h : Q (m.closed slot)) :
    Leaves Q (closeFrom slot) m := by
  rw [Leaves, closeFrom_apply]
  by_cases hbeyond : (m.openCells.takeWhile (slot ≤ ·.1)).any (m.stack.size ≤ ·.1) = true
  · rw [if_pos hbeyond]
    exact h
  · rw [if_neg hbeyond]
    exact h

namespace KeepsWorking

theorem closeUpvalue : KeepsWorking closeUpvalue := by
  refine (Quiet.slotBelow 0).keeps.bind fun top => bind (fun m hm => leaves_closeFrom ?_) fun _ =>
    (Quiet.pop.bind fun _ => .pure _).keeps
  exact { hm.toIntact.closed top with active := hm.active }

/-! ### Calls -/

theorem call (c : Closure) (count : Nat) : KeepsWorking (call c count) := by
  have henter (base : Nat) : KeepsWorking (get >>= fun m =>
      if m.frames.length < maxFrames then
        modify fun m => { m with frames := ⟨c, 0, base⟩ :: m.frames }
      else fail .stackOverflow) := by
    refine fun m hm => .get_bind ?_
    split
    · rename_i hroom
      refine { hm with frames := hroom, ground := fun f hf => hm.ground f ?_, active := List.cons_ne_nil _ _ }
      rwa [List.getLast?_cons_of_ne_nil hm.active] at hf
    · exact (Quiet.fail _).keeps m hm
  rw [Machine.call]
  split
  · exact (Quiet.fail _).keeps.bind fun _ => (Quiet.slotBelow count).keeps.bind henter
  · exact (Quiet.slotBelow count).keeps.bind henter

theorem construct (c : Class) (slot count : Nat) : KeepsWorking (construct c slot count) := by
  refine (Quiet.make (fun _ => rfl) fun _ => rfl).keeps.bind fun o =>
    (Quiet.writeSlot slot _).keeps.bind fun _ => bind (fun m hm => hm) fun m => ?_
  cases m.store.method? c initName with
  | some method => exact call method count
  | none => exact (Quiet.ite (.fail _) (.pure _)).keeps

theorem callValue (callee : Value) (count : Nat) : KeepsWorking (callValue callee count) := by
  refine (Quiet.slotBelow count).keeps.bind fun slot => ?_
  cases callee with
  | closure c => exact call c count
  | bound _ receiver method => exact (Quiet.writeSlot slot receiver).keeps.bind fun _ => call method count
  | cls c => exact construct c slot count
  | native n => exact (Quiet.callNative n slot).keeps
  | _ => exact (Quiet.fail _).keeps

theorem invokeFrom (c : Class) (name : String) (count : Nat) :
    KeepsWorking (invokeFrom c name count) :=
  (Quiet.method c name).keeps.bind fun method => call method count

theorem invoke (name : String) (count : Nat) : KeepsWorking (invoke name count) := by
  refine (Quiet.peek count).keeps.bind fun receiver => ?_
  cases receiver with
  | object o =>
      refine bind (fun m hm => hm) fun m => ?_
      cases m.store.field? o name with
      | some v =>
          exact (Quiet.slotBelow count).keeps.bind fun slot =>
            (Quiet.writeSlot slot v).keeps.bind fun _ => callValue v count
      | none => exact invokeFrom o.cls name count
  | _ => exact (Quiet.fail _).keeps

/-! ### Properties and methods -/

theorem getProperty : KeepsWorking getProperty :=
  (Quiet.peek 0).keeps.bind fun receiver => by
    cases receiver with
    | object o =>
        refine bind readName fun name => Quiet.keeps <| .get_bind fun m => ?_
        cases m.store.field? o name with
        | some v => exact Quiet.pop.bind fun _ => .push v
        | none => exact .bindMethod o.cls name
    | _ => exact (Quiet.fail _).keeps

theorem setProperty : KeepsWorking setProperty :=
  (Quiet.peek 1).keeps.bind fun receiver => by
    cases receiver with
    | object o =>
        refine bind readName fun name => (Quiet.pop.bind fun v => ?_).keeps
        have hset : Quiet (changeStore (·.setField o name v)) :=
          .changeStore (fun _ => rfl) fun _ => rfl
        exact hset.bind fun _ => Quiet.pop.bind fun _ => .push v
    | _ => exact (Quiet.fail _).keeps

theorem defineMethod : KeepsWorking defineMethod :=
  bind readName fun name => Quiet.keeps <| Quiet.pop.bind fun v => by
    cases v with
    | closure c =>
        refine (Quiet.peek 0).bind fun w => ?_
        cases w with
        | cls k => exact .changeStore (fun _ => rfl) fun _ => rfl
        | _ => exact .violate _
    | _ => exact .violate _

/-! ### Jumps -/

theorem jump : KeepsWorking jump :=
  bind readDistance fun _ => Quiet.frame.keeps.bind fun _ => moveTo _

theorem jumpIfFalse : KeepsWorking jumpIfFalse :=
  bind readDistance fun _ => (Quiet.peek 0).keeps.bind fun v => by
    split
    · exact Quiet.frame.keeps.bind fun _ => moveTo _
    · exact (Quiet.pure _).keeps

theorem loop : KeepsWorking loop :=
  bind readDistance fun distance => Quiet.frame.keeps.bind fun f => by
    dsimp only
    split
    · exact moveTo _
    · exact (Quiet.violate _).keeps

/-! ### One instruction -/

theorem execute {op : Opcode} (hop : op ≠ .ret) : KeepsWorking (execute op) := by
  cases op with
  | constant => exact bind readConstant fun v => (Quiet.push v).keeps
  | litNil | litTrue | litFalse => exact (Quiet.push _).keeps
  | pop => exact (Quiet.pop.bind fun _ => .pure _).keeps
  | getLocal => exact bind readLocal fun slot => ((Quiet.readSlot slot).bind fun v => .push v).keeps
  | setLocal => exact bind readLocal fun slot => ((Quiet.peek 0).bind fun v => .writeSlot slot v).keeps
  | getGlobal => exact bind readName fun name => (Quiet.getGlobal name).keeps
  | defineGlobal => exact bind readName fun name => (Quiet.defineGlobal name).keeps
  | setGlobal => exact bind readName fun name => (Quiet.setGlobal name).keeps
  | getUpvalue => exact getUpvalue
  | setUpvalue => exact setUpvalue
  | getProperty => exact getProperty
  | setProperty => exact setProperty
  | getSuper => exact bind readName fun name => (Quiet.popClass.bind fun c => .bindMethod c name).keeps
  | equal => exact (Quiet.pop.bind fun _ => Quiet.pop.bind fun _ => .push _).keeps
  | greater | less | subtract | multiply | divide => exact (Quiet.binary _).keeps
  | add => exact Quiet.add.keeps
  | not => exact (Quiet.pop.bind fun _ => .push _).keeps
  | negate => exact Quiet.negate.keeps
  | print => exact Quiet.printTop.keeps
  | assert => exact Quiet.assertTop.keeps
  | jump => exact jump
  | jumpIfFalse => exact jumpIfFalse
  | loop => exact loop
  | call =>
      exact bind readByte fun count => (Quiet.peek _).keeps.bind fun callee => callValue callee _
  | invoke => exact bind readName fun name => bind readByte fun count => invoke name _
  | superInvoke =>
      exact bind readName fun name => bind readByte fun count =>
        Quiet.popClass.keeps.bind fun c => invokeFrom c name _
  | closure => exact makeClosure
  | closeUpvalue => exact closeUpvalue
  | ret => exact absurd rfl hop
  | makeClass =>
      exact bind readName fun name =>
        ((Quiet.make (fun _ => rfl) fun _ => rfl).bind fun _ => .push _).keeps
  | inherit => exact Quiet.inherit.keeps
  | method => exact defineMethod

end KeepsWorking

/-! ## Leaving a call -/

/-- The machine without its innermost frame. -/
theorem Working.outside (hm : m.Working) {f : Frame} {fs : List Frame} (hframes : m.frames = f :: fs) :
    Intact { m with frames := fs } := by
  have hlength := hm.frames
  have hground := hm.ground
  rw [hframes] at hlength hground
  refine { hm with frames := Nat.le_of_succ_le hlength, ground := fun g hg => hground g ?_ }
  rw [List.getLast?_cons_of_ne_nil]
  · exact hg
  · rintro rfl
    cases hg

theorem Working.leave (hm : m.Working) : Leaves Intact leave m := by
  obtain ⟨f, fs, hframes⟩ := List.exists_cons_of_ne_nil hm.active
  refine Leaves.bind (fun result m₁ hpop => ?_) fun e m₁ hpop =>
    (Quiet.pop.keeps.of_error hm hpop).toIntact
  have hframes₁ : m₁.frames = f :: fs := (Quiet.pop.beside hpop).frames.trans hframes
  have hout := (Quiet.pop.keeps.of_ok hm hpop).outside hframes₁
  refine .get_bind ?_
  rw [hframes₁]
  refine .modify_bind ?_
  have hclose : Leaves Intact (closeFrom f.base) { m₁ with frames := fs } :=
    leaves_closeFrom (hout.closed f.base)
  refine Leaves.bind (fun _ m₃ hclosed => ?_) fun e m₃ hfailed => by rwa [Leaves, hfailed] at hclose
  rw [Leaves, hclosed] at hclose
  have hrest : Quiet (truncate f.base >>= fun _ => if fs ≠ [] then push result else pure ()) :=
    (Quiet.truncate _).bind fun _ => .ite (.push _) (.pure _)
  exact (hrest m₃).mono fun _ hb => hb.intact hclose

/-- The lowest frame begins at the bottom of the stack: leaving it empties the stack and closes every
cell. -/
theorem Working.atRest_of_leave (hm : m.Working) {u : Unit} (hrun : Machine.leave m = .ok u m')
    (hlast : m'.frames = []) : m'.AtRest := by
  obtain ⟨f, fs, hframes⟩ := List.exists_cons_of_ne_nil hm.active
  obtain ⟨result, m₁, hpop, hrun⟩ := bind_eq_ok.mp hrun
  have hframes₁ : m₁.frames = f :: fs := (Quiet.pop.beside hpop).frames.trans hframes
  obtain ⟨_, _, hget, hrun⟩ := bind_eq_ok.mp hrun
  cases hget
  rw [hframes₁] at hrun
  obtain ⟨_, m₂, hmodify, hrun⟩ := bind_eq_ok.mp hrun
  cases hmodify
  obtain ⟨_, m₃, hclose, hrun⟩ := bind_eq_ok.mp hrun
  obtain ⟨-, rfl⟩ := closeFrom_eq_ok hclose rfl
  obtain ⟨_, m₄, htruncate, hrun⟩ := bind_eq_ok.mp hrun
  cases htruncate
  cases fs with
  | cons f' fs =>
      rw [if_pos (List.cons_ne_nil _ _)] at hrun
      rw [((Quiet.push result).beside hrun).frames] at hlast
      cases hlast
  | nil =>
      rw [if_neg (not_not.mpr rfl)] at hrun
      cases hrun
      have hground : f.base = 0 := (Quiet.pop.keeps.of_ok hm hpop).ground f (by rw [hframes₁]; rfl)
      refine ⟨?_, rfl, ?_⟩
      · change m₁.stack.shrink f.base = #[]
        rw [hground]
        simp
      · change m₁.openCells.dropWhile (f.base ≤ ·.1) = []
        rw [hground]
        exact List.dropWhile_eq_nil_iff.mpr fun x _ => by simp

/-! ## Steps and runs -/

theorem Working.step (hm : m.Working) : Leaves Intact step m := by
  refine Leaves.bind (fun byte m₁ hread => ?_) fun e m₁ hread =>
    (KeepsWorking.readByte.of_error hm hread).toIntact
  have h₁ := KeepsWorking.readByte.of_ok hm hread
  cases Opcode.ofByte? byte with
  | none => exact h₁.toIntact
  | some op =>
      by_cases hop : op = .ret
      · subst hop
        exact h₁.leave
      · exact (KeepsWorking.execute hop m₁ h₁).mono fun _ => Working.toIntact

/-- A step that succeeds goes on or is the last one. -/
theorem Working.step_ok (hm : m.Working) {u : Unit} (hrun : Machine.step m = .ok u m') :
    m'.Working ∨ m'.AtRest := by
  have hintact := hm.step
  rw [Leaves, hrun] at hintact
  by_cases hlast : m'.frames = []
  · refine .inr ?_
    obtain ⟨byte, m₁, hread, hrun⟩ := bind_eq_ok.mp hrun
    have h₁ := KeepsWorking.readByte.of_ok hm hread
    cases hbyte : Opcode.ofByte? byte with
    | none =>
        rw [hbyte] at hrun
        cases hrun
    | some op =>
        rw [hbyte] at hrun
        by_cases hop : op = .ret
        · subst hop
          exact h₁.atRest_of_leave hrun hlast
        · exact absurd hlast ((KeepsWorking.execute hop).of_ok h₁ hrun).active
  · exact .inl { hintact with active := hlast }

theorem Working.traceStep (hm : m.Working) : m.traceStep.Working := by
  rw [m.alike_traceStep]
  exact { hm with }

/-- What a machine is like when a run has ended in some way. -/
def Intact.After (m : Machine) : Outcome → Prop
  | .unfinished => m.Working
  | .finished | .failed _ => m.AtRest

theorem Working.run {budget : Nat} (hm : m.Working) :
    Intact.After (Machine.run budget m).2 (Machine.run budget m).1 := by
  refine run_of_invariant (P := Working) (Q := fun o m => Intact.After m o) ?_ id ?_ ?_ hm budget
  · intro m m' hm hstep hactive
    exact (hm.traceStep.step_ok hstep).resolve_right fun h => hactive h.frames
  · intro m m' hm hstep hlast
    exact (hm.traceStep.step_ok hstep).resolve_left fun h => h.active hlast
  · exact fun _ _ => atRest_reset _

/-- A machine at rest has nothing but the function on the stack when it enters it. -/
theorem AtRest.enter_eq (hm : m.AtRest) (f : Function) :
    Machine.enter f m = call ⟨m.store.nextId, f, #[]⟩ 0 { m with
      store := { m.store with nextId := m.store.nextId + 1 }
      stack := #[.closure ⟨m.store.nextId, f, #[]⟩] } := by
  have hpush (v : Value) : push v { m with store := { m.store with nextId := m.store.nextId + 1 } } =
      .ok () { m with store := { m.store with nextId := m.store.nextId + 1 }, stack := #[v] } := by
    simp only [push, bind_apply, get_apply, hm.stack, ite_apply, modify_apply]
    rfl
  rw [Machine.enter]
  exact (bind_apply _ _ _).trans ((bind_apply _ _ _).trans (by rw [hpush]))

/-- A machine at rest enters a function with nothing else on the stack, so that its frame begins at the
bottom. -/
theorem AtRest.enter (hm : m.AtRest) (f : Function) :
    Leaves Intact (enter f) m ∧ ∀ u m', Machine.enter f m = .ok u m' → m'.Working := by
  have hpush := hm.enter_eq f
  set c : Closure := ⟨m.store.nextId, f, #[]⟩
  set m₁ : Machine := { m with store := { m.store with nextId := m.store.nextId + 1 }, stack := #[.closure c] }
  have h₁ : m₁.Intact := { hm.intact with stack := Nat.le_of_ble_eq_true rfl }
  rw [Leaves, hpush, call_apply c 0 (by simp [m₁, values])]
  by_cases harity : 0 ≠ c.function.arity
  · rw [if_pos harity]
    exact ⟨h₁, by simp⟩
  · have hroom : m₁.frames.length < maxFrames := by
      rw [show m₁.frames = [] from hm.frames]
      exact Nat.zero_lt_of_ne_zero (by decide)
    have hentered : Working { m₁ with frames := ⟨c, 0, m₁.values.length - 1 - 0⟩ :: m₁.frames } :=
      { h₁ with
        frames := hroom
        ground := by
          rw [show m₁.frames = [] from hm.frames]
          intro g hg
          obtain rfl := Option.some.inj hg
          rfl
        active := List.cons_ne_nil _ _ }
    rw [if_neg harity, if_pos hroom]
    refine ⟨hentered.toIntact, fun _ _ h => ?_⟩
    cases h
    exact hentered

theorem AtRest.interpret (hm : m.AtRest) (budget : Nat) (f : Function) :
    Intact.After (m.interpret budget f).2 (m.interpret budget f).1 := by
  rw [Machine.interpret]
  cases hrun : Machine.enter f m with
  | error fault m' => exact atRest_reset _
  | ok u m' => exact ((hm.enter f).2 u m' hrun).run

end Machine

/-! ## Whatever has happened to a machine -/

/-- Whether a run goes on. -/
def Outcome.stage : Outcome → Stage
  | .unfinished => .running
  | .finished | .failed _ => .idle

def Ending.stage : Ending → Stage
  | .unfinished => .running
  | .completed | .rejected _ | .failed _ => .idle

/-- A machine that has been given texts, functions of the host and functions made by hand, each
followed for any number of instructions, whatever has become of them. Between two runs the host may
put anything into the store: code of any bytes and constants, and objects that it has made itself. At
any time it may set the clock and take what has been printed. -/
inductive History : Stage → Machine → Prop where
  | new (console : Console) : History .idle (.new console)
  | native {m} (name : String) (f : NativeFunction) : History .idle m →
      History .idle (m.defineNative name f)
  | made {m} (store : Store) : History .idle m → History .idle { m with store }
  | host {st m} (time : Number) (console : Console) : History st m →
      History st { m with time, console }
  | text {m} (budget : Nat) (source : String) : History .idle m →
      History (m.runSource budget source).1.stage (m.runSource budget source).2
  | function {m} (budget : Nat) (f : Function) : History .idle m →
      History (m.interpret budget f).1.stage (m.interpret budget f).2
  | resumed {m} (budget : Nat) : History .running m →
      History (m.resume budget).1.stage (m.resume budget).2

/-- What is known about a machine at each stage, and about the states that its next turn or
instruction passes through. -/
def Stage.Intact (m : Machine) : Stage → Prop
  | .idle => m.AtRest ∧ ∀ f, Leaves Machine.Intact (enter f) m
  | .running => m.Working ∧ Leaves Machine.Intact step m.traceStep

section History

variable {m m' : Machine}

theorem Machine.AtRest.stage (h : m.AtRest) : Stage.idle.Intact m :=
  ⟨h, fun f => (h.enter f).1⟩

theorem Machine.Working.stage (h : m.Working) : Stage.running.Intact m :=
  ⟨h, h.traceStep.step⟩

theorem Machine.Intact.After.stage {o : Outcome} (h : Intact.After m o) : o.stage.Intact m := by
  cases o with
  | finished | failed => exact AtRest.stage h
  | unfinished => exact Working.stage h

theorem stage_ofOutcome (o : Outcome) : (Ending.ofOutcome o).stage = o.stage := by
  cases o <;> rfl

theorem Machine.Alike.atRest (h : m.Alike m') (hm : m.AtRest) : m'.AtRest := by
  rw [h]
  exact ⟨hm.stack, hm.frames, hm.openCells⟩

theorem Machine.AtRest.runSource (hm : m.AtRest) (budget : Nat) (source : String) :
    (m.runSource budget source).1.stage.Intact (m.runSource budget source).2 := by
  rw [Machine.runSource, Machine.prepare]
  set m₁ := m.record .trace ("Got input string: " ++ source)
  have h₁ : m.Alike m₁ := rfl
  dsimp only
  cases Program.compile m₁.store.chunks.size source with
  | error r => exact ((h₁.trans (alike_recordRejection m₁ r)).atRest hm).stage
  | ok p =>
      dsimp only
      set m₂ := ((m₁.recordRoutines p.nested).recordListing "<script>" p.main.code).record .debug
        "Compiled script, running"
      have h₂ : m₁.Alike m₂ :=
        ((alike_recordRoutines m₁ _).trans (alike_recordListing _ _ _)).trans rfl
      have hm₂ := (h₁.trans h₂).atRest hm
      have hload : (m₂.load p).AtRest := ⟨hm₂.stack, hm₂.frames, hm₂.openCells⟩
      rw [stage_ofOutcome]
      exact (hload.interpret budget p.main.function).stage

theorem History.stage {st : Stage} (h : History st m) : st.Intact m := by
  induction h with
  | new console => exact AtRest.stage ⟨rfl, rfl, rfl⟩
  | native name f _ ih => exact AtRest.stage ⟨ih.1.stack, ih.1.frames, ih.1.openCells⟩
  | made store _ ih => exact AtRest.stage ⟨ih.1.stack, ih.1.frames, ih.1.openCells⟩
  | @host st m time console _ ih =>
      cases st with
      | idle => exact AtRest.stage ⟨ih.1.stack, ih.1.frames, ih.1.openCells⟩
      | running => exact Working.stage { ih.1 with }
  | text budget source _ ih => exact ih.1.runSource budget source
  | function budget f _ ih => exact (ih.1.interpret budget f).stage
  | @resumed m budget _ ih =>
      rw [resume, stage_ofOutcome]
      exact ih.1.run.stage

/-- Whatever code a machine has been given and whatever has failed: it is intact at each instruction,
also where one stops halfway, and nothing of a run is left when the run is over. -/
theorem History.intact_throughout {st : Stage} (h : History st m) :
    m.Intact ∧ match st with
      | .idle => m.AtRest ∧ ∀ f, Leaves Machine.Intact (enter f) m
      | .running => Leaves Machine.Intact step m.traceStep := by
  have hstage := h.stage
  cases st with
  | idle => exact ⟨hstage.1.intact, hstage⟩
  | running => exact ⟨hstage.1.toIntact, hstage.2⟩

/-- Code that captures a slot beyond the stack and returns without a result. -/
theorem History.intact_throughout_beyond :
    let code : Chunk := ⟨#[(32, 1), (0, 1), (1, 1), (200, 1), (34, 1)], #[.function ⟨0, "", 0, 1⟩]⟩
    let m : Machine := { Machine.new {} with store := { (Machine.new {}).store with chunks := #[code] } }
    ∃ ran, m.interpret 2 ⟨0, "", 0, 0⟩ = ran ∧ ran.2.Intact ∧ match ran.1.stage with
      | .idle => ran.2.AtRest ∧ ∀ f, Leaves Machine.Intact (enter f) ran.2
      | .running => Leaves Machine.Intact step ran.2.traceStep := by
  intro code m
  have hm : History .idle m := .made _ (.new {})
  obtain ⟨ran, hran⟩ : ∃ ran, m.interpret 2 ⟨0, "", 0, 0⟩ = ran := ⟨_, rfl⟩
  have h : History ran.1.stage ran.2 := hran ▸ .function 2 _ hm
  obtain ⟨hintact, hstage⟩ := h.intact_throughout
  refine ⟨ran, hran, hintact, ?_⟩
  generalize ran.1.stage = st at h hstage ⊢
  cases st <;> exact hstage

end History

end LoxMachine
