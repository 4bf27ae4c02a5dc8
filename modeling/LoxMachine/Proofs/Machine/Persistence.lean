import LoxMachine.Proofs.Machine.Halting
import LoxMachine.Proofs.Machine.Intact

/-!
# What outlives a failure

Globals, the fields of objects, the methods of classes and the printed text outlive a run. An instruction
makes all its checks before it changes any of them, so one that fails has changed none of them
(`Persists`), whatever code it belongs to. If it fails for what the script does, it has not changed a
captured variable either (`Retains`).

Most actions change nothing of that kind, however they end (`Harmless`). The others make the change last,
and so have not come to it where they fail (`Cautious`). Three instructions go on behind the change:
assigning to a property, which pushes the value again, and the two that close captured variables. They
find what they need then.

Main statement: `failure_persists`.
-/

namespace LoxMachine.Machine

open Std (HashMap)

/-- What outlives a run is in `m'` as it is in `m`. There may be more objects and classes. -/
structure Persists (m m' : Machine) : Prop where
  globals : m'.globals = m.globals
  fields : ∀ (i : Nat) (table : HashMap String Value), m.store.fields[i]? = some table →
    m'.store.fields[i]? = some table
  methods : ∀ (i : Nat) (table : HashMap String Closure), m.store.methods[i]? = some table →
    m'.store.methods[i]? = some table
  output : m'.console.output = m.console.output

/-- So are the captured variables. -/
structure Retains (m m' : Machine) : Prop extends m.Persists m' where
  cells : ∀ (i : Nat) (cell : Cell), m.store.cells[i]? = some cell → m'.store.cells[i]? = some cell

variable {α β : Type} {m m' m'' : Machine}

theorem Persists.refl (m : Machine) : m.Persists m :=
  ⟨rfl, fun _ _ => id, fun _ _ => id, rfl⟩

theorem Persists.trans (h : m.Persists m') (h' : m'.Persists m'') : m.Persists m'' where
  globals := h'.globals.trans h.globals
  fields i t ht := h'.fields i t (h.fields i t ht)
  methods i t ht := h'.methods i t (h.methods i t ht)
  output := h'.output.trans h.output

theorem Retains.refl (m : Machine) : m.Retains m :=
  ⟨.refl m, fun _ _ => id⟩

theorem Retains.trans (h : m.Retains m') (h' : m'.Retains m'') : m.Retains m'' :=
  ⟨h.toPersists.trans h'.toPersists, fun i c hc => h'.cells i c (h.cells i c hc)⟩

/-- Only the stack, the frames, the list of open cells, the clock or the log have changed. -/
theorem Retains.beside (hglobals : m'.globals = m.globals) (hstore : m'.store = m.store)
    (houtput : m'.console.output = m.console.output) : m.Retains m' := by
  refine ⟨⟨hglobals, fun i t ht => ?_, fun i t ht => ?_, houtput⟩, fun i c hc => ?_⟩ <;>
    rwa [hstore]

theorem getElem?_push_of_lt {γ : Type} {xs : Array γ} {x y : γ} {i : Nat} (h : xs[i]? = some x) :
    (xs.push y)[i]? = some x := by
  obtain ⟨hi, rfl⟩ := Array.getElem?_eq_some_iff.mp h
  exact Array.getElem?_push_lt hi

/-! ## Actions that change nothing of it -/

def Harmless (x : Action α) : Prop :=
  ∀ m, Leaves m.Retains x m

namespace Harmless

theorem retains {x : Action α} (h : Harmless x) {a : α} (hx : x m = .ok a m') : m.Retains m' := by
  have := h m
  rwa [Leaves, hx] at this

theorem retains_of_error {x : Action α} (h : Harmless x) {e : Fault} (hx : x m = .error e m') :
    m.Retains m' := by
  have := h m
  rwa [Leaves, hx] at this

theorem bind {x : Action α} {f : α → Action β} (hx : Harmless x) (hf : ∀ a, Harmless (f a)) :
    Harmless (x >>= f) := fun _ =>
  Leaves.bind (fun a m' h => (hf a m').mono fun _ => (hx.retains h).trans) fun _ _ h =>
    hx.retains_of_error h

theorem pure (a : α) : Harmless (pure a : Action α) :=
  fun m => .refl m

theorem fail (e : RuntimeError) : Harmless (fail e : Action α) :=
  fun m => .refl m

theorem violate (v : Violation) : Harmless (violate v : Action α) :=
  fun m => .refl m

theorem orViolate (x : Option α) (v : Violation) : Harmless (orViolate x v) := by
  cases x with
  | none => exact violate v
  | some a => exact pure a

theorem get_bind {f : Machine → Action β} (hf : ∀ m, Harmless (f m)) :
    Harmless (MonadState.get >>= f) :=
  fun m => hf m m

theorem modify {g : Machine → Machine} (hg : ∀ m : Machine, m.Retains (g m)) :
    Harmless (modify g : Action PUnit) :=
  hg

theorem ite {c : Prop} [Decidable c] {x y : Action α} (hx : Harmless x) (hy : Harmless y) :
    Harmless (if c then x else y) := by
  split
  · exact hx
  · exact hy

/-! ### The stack -/

theorem push (v : Value) : Harmless (push v) :=
  get_bind fun _ => ite (modify fun _ => .beside rfl rfl rfl)
    (fail _)

theorem pop : Harmless pop :=
  get_bind fun m => by
    cases m.stack.back? with
    | none => exact violate _
    | some v =>
        exact bind (modify fun _ => .beside rfl rfl rfl)
          fun _ => pure v

theorem slotBelow (distance : Nat) : Harmless (slotBelow distance) :=
  get_bind fun _ => ite (pure _) (violate _)

theorem peek (distance : Nat) : Harmless (peek distance) :=
  get_bind fun _ => ite (orViolate _ _) (violate _)

theorem readSlot (slot : Nat) : Harmless (readSlot slot) :=
  get_bind fun _ => orViolate _ _

theorem writeSlot (slot : Nat) (v : Value) : Harmless (writeSlot slot v) :=
  get_bind fun _ => ite (modify fun _ => .beside rfl rfl rfl)
    (violate _)

theorem truncate (slot : Nat) : Harmless (truncate slot) :=
  modify fun _ => .beside rfl rfl rfl

theorem popClass : Harmless popClass :=
  bind pop fun v => by cases v <;> first | exact pure _ | exact violate _

/-! ### The code -/

theorem frame : Harmless frame :=
  get_bind fun _ => orViolate _ _

theorem moveTo (ip : Nat) : Harmless (moveTo ip) :=
  get_bind fun m => by
    cases m.frames with
    | nil => exact violate _
    | cons f fs =>
        exact modify fun _ => .beside rfl rfl rfl

theorem readByte : Harmless readByte := by
  intro m
  rw [Machine.readByte]
  refine .get_bind ?_
  split
  · exact .refl m
  · split
    · exact .refl m
    · exact .beside rfl rfl rfl

theorem readDistance : Harmless readDistance :=
  bind readByte fun _ => bind readByte fun _ => pure _

theorem readConstant : Harmless readConstant :=
  bind readByte fun _ => bind frame fun _ => get_bind fun _ => orViolate _ _

theorem readName : Harmless readName :=
  bind readConstant fun v => by cases v <;> first | exact pure _ | exact violate _

theorem readLocal : Harmless readLocal :=
  bind readByte fun _ => bind frame fun _ => pure _

theorem readCell : Harmless readCell :=
  bind readByte fun _ => bind frame fun _ => orViolate _ _

/-! ### The store -/

/-- Making something new. -/
theorem make {new : Store → α × Store}
    (h : ∀ m : Machine, m.Retains { m with store := (new m.store).2 }) : Harmless (make new) :=
  h

theorem newClosure (f : Function) (cells : Array Nat) : Harmless (Machine.make (·.newClosure f cells)) :=
  make fun _ => ⟨⟨rfl, fun _ _ => id, fun _ _ => id, rfl⟩, fun _ _ => id⟩

theorem capture (slot : Nat) : Harmless (capture slot) :=
  get_bind fun m => by
    cases m.openCells.lookup slot with
    | some cell => exact pure cell
    | none =>
        have hnew : Harmless (Machine.make (·.newCell slot)) :=
          make fun _ => ⟨⟨rfl, fun _ _ => id, fun _ _ => id, rfl⟩, fun _ _ => getElem?_push_of_lt⟩
        exact hnew.bind fun cell =>
          bind (modify fun _ => .beside rfl rfl rfl) fun _ => pure cell

theorem readCaptures (n : Nat) (cells : Array Nat) : Harmless (readCaptures n cells) := by
  induction n generalizing cells with
  | zero => exact pure cells
  | succ n ih =>
      refine bind readByte fun source => bind readByte fun index => bind frame fun f => ?_
      split
      · exact (capture _).bind fun _ => ih _
      · exact (orViolate _ _).bind fun _ => ih _

theorem makeClosure : Harmless makeClosure :=
  bind readConstant fun v => by
    cases v with
    | function f => exact (readCaptures _ _).bind fun cells => (newClosure f cells).bind fun _ => push _
    | _ => exact violate _

theorem getUpvalue : Harmless getUpvalue :=
  bind readCell fun cell => get_bind fun m => by
    split
    · exact push _
    · exact (readSlot _).bind fun _ => push _
    · exact violate _

/-! ### Calls and properties -/

theorem call (c : Closure) (count : Nat) : Harmless (call c count) := by
  have henter (base : Nat) : Harmless (MonadState.get >>= fun m : Machine =>
      if m.frames.length < maxFrames then
        MonadState.modifyGet fun m : Machine => (PUnit.unit, { m with frames := ⟨c, 0, base⟩ :: m.frames })
      else Machine.fail .stackOverflow) :=
    get_bind fun _ => ite (modify fun _ => .beside rfl rfl rfl)
      (fail _)
  rw [Machine.call]
  split
  · exact bind (fail _) fun _ => (slotBelow count).bind henter
  · exact (slotBelow count).bind henter

theorem construct (c : Class) (slot count : Nat) : Harmless (construct c slot count) := by
  have hnew : Harmless (Machine.make (·.newObject c)) :=
    make fun _ => ⟨⟨rfl, fun _ _ => getElem?_push_of_lt, fun _ _ => id, rfl⟩, fun _ _ => id⟩
  refine hnew.bind fun o => (writeSlot slot _).bind fun _ => get_bind fun m => ?_
  cases m.store.method? c initName with
  | some method => exact call method count
  | none => exact ite (fail _) (pure _)

theorem callNative (n : Native) (slot : Nat) : Harmless (callNative n slot) :=
  get_bind fun _ => (truncate slot).bind fun _ => push _

theorem callValue (callee : Value) (count : Nat) : Harmless (callValue callee count) := by
  refine (slotBelow count).bind fun slot => ?_
  cases callee with
  | closure c => exact call c count
  | bound _ receiver method => exact (writeSlot slot receiver).bind fun _ => call method count
  | cls c => exact construct c slot count
  | native n => exact callNative n slot
  | _ => exact fail _

theorem method (c : Class) (name : String) : Harmless (method c name) :=
  get_bind fun m => by cases m.store.method? c name <;> first | exact pure _ | exact fail _

theorem bindMethod (c : Class) (name : String) : Harmless (bindMethod c name) := by
  have hnew (receiver : Value) (method : Closure) :
      Harmless (Machine.make (·.newBound receiver method)) :=
    make fun _ => ⟨⟨rfl, fun _ _ => id, fun _ _ => id, rfl⟩, fun _ _ => id⟩
  exact (method c name).bind fun _ => bind pop fun _ => (hnew _ _).bind fun v => push v

theorem invokeFrom (c : Class) (name : String) (count : Nat) : Harmless (invokeFrom c name count) :=
  (method c name).bind fun method => call method count

theorem invoke (name : String) (count : Nat) : Harmless (invoke name count) := by
  refine (peek count).bind fun receiver => ?_
  cases receiver with
  | object o =>
      refine get_bind fun m => ?_
      cases m.store.field? o name with
      | some v =>
          exact (slotBelow count).bind fun slot => (writeSlot slot v).bind fun _ => callValue v count
      | none => exact invokeFrom o.cls name count
  | _ => exact fail _

theorem getProperty : Harmless getProperty :=
  (peek 0).bind fun receiver => by
    cases receiver with
    | object o =>
        refine bind readName fun name => get_bind fun m => ?_
        cases m.store.field? o name with
        | some v => exact bind pop fun _ => push v
        | none => exact bindMethod o.cls name
    | _ => exact fail _

theorem getGlobal (name : String) : Harmless (getGlobal name) :=
  get_bind fun m => by cases m.globals[name]? <;> first | exact push _ | exact fail _

theorem makeClass (name : String) : Harmless (Machine.make (·.newClass name)) :=
  make fun _ => ⟨⟨rfl, fun _ _ => id, fun _ _ => getElem?_push_of_lt, rfl⟩, fun _ _ => id⟩

/-! ### Operators and jumps -/

theorem binary (f : Number → Number → Value) : Harmless (binary f) :=
  bind pop fun b => bind pop fun a => by
    cases a <;> cases b <;> first | exact push _ | exact fail _

theorem add : Harmless add :=
  (peek 1).bind fun a => (peek 0).bind fun b => by
    cases a <;> cases b <;> first
      | exact binary _
      | exact bind pop fun _ => bind pop fun _ => push _
      | exact fail _

theorem negate : Harmless negate :=
  bind pop fun v => by cases v <;> first | exact push _ | exact fail _

theorem assertTop : Harmless assertTop :=
  bind pop fun v => by
    split
    · exact pure _
    · exact fail _
    · exact fail _

theorem jump : Harmless jump :=
  bind readDistance fun _ => bind frame fun _ => moveTo _

theorem jumpIfFalse : Harmless jumpIfFalse :=
  bind readDistance fun _ => (peek 0).bind fun _ => by
    split
    · exact bind frame fun _ => moveTo _
    · exact pure _

theorem loop : Harmless loop :=
  bind readDistance fun _ => bind frame fun _ => ite (moveTo _) (violate _)

end Harmless

/-! ## Actions that make a change last -/

def Cautious (x : Action α) : Prop :=
  ∀ m e m', x m = .error e m' → m.Retains m'

namespace Cautious

theorem of_harmless {x : Action α} (h : Harmless x) : Cautious x :=
  fun _ _ _ hx => h.retains_of_error hx

theorem change {g : Machine → Machine} : Cautious (modify g : Action PUnit) :=
  fun _ _ _ => nofun

/-- What comes before the change is harmless. -/
theorem bind {x : Action α} {f : α → Action β} (hx : Harmless x) (hf : ∀ a, Cautious (f a)) :
    Cautious (x >>= f) := by
  intro m e m' h
  rw [bind_apply] at h
  cases hrun : x m with
  | ok a m₁ =>
      rw [hrun] at h
      exact (hx.retains hrun).trans (hf a m₁ e m' h)
  | error fault m₁ =>
      rw [hrun] at h
      cases h
      exact hx.retains_of_error hrun

theorem get_bind {f : Machine → Action β} (hf : ∀ m, Cautious (f m)) :
    Cautious (MonadState.get >>= f) :=
  fun m => hf m m

theorem defineGlobal (name : String) : Cautious (defineGlobal name) :=
  bind .pop fun _ => change

theorem setGlobal (name : String) : Cautious (setGlobal name) :=
  bind (.peek 0) fun _ => get_bind fun m => by
    split
    · exact change
    · exact of_harmless (.fail _)

theorem setUpvalue : Cautious setUpvalue :=
  bind .readCell fun cell => bind (.peek 0) fun v => get_bind fun m => by
    split
    · exact change
    · exact of_harmless (.writeSlot _ _)
    · exact of_harmless (.violate _)

theorem inherit : Cautious inherit :=
  bind (.peek 1) fun parent => by
    cases parent with
    | cls parent => exact bind .popClass fun _ => change
    | _ => exact of_harmless (.fail _)

theorem defineMethod : Cautious defineMethod :=
  bind .readName fun name => bind .pop fun v => by
    cases v with
    | closure c =>
        refine bind (.peek 0) fun w => ?_
        cases w with
        | cls k => exact change
        | _ => exact of_harmless (.violate _)
    | _ => exact of_harmless (.violate _)

theorem printTop : Cautious printTop :=
  bind .pop fun _ => change

/-- An instruction that does nothing behind a change. -/
theorem execute {op : Opcode} (hset : op ≠ .setProperty) (hclose : op ≠ .closeUpvalue)
    (hret : op ≠ .ret) : Cautious (execute op) := by
  cases op with
  | setProperty => exact absurd rfl hset
  | closeUpvalue => exact absurd rfl hclose
  | ret => exact absurd rfl hret
  | constant => exact of_harmless (Harmless.readConstant.bind fun v => .push v)
  | litNil | litTrue | litFalse => exact of_harmless (.push _)
  | pop => exact of_harmless (Harmless.pop.bind fun _ => .pure _)
  | getLocal =>
      exact of_harmless (Harmless.readLocal.bind fun slot => (Harmless.readSlot slot).bind fun v => .push v)
  | setLocal =>
      exact of_harmless (Harmless.readLocal.bind fun slot => (Harmless.peek 0).bind fun v => .writeSlot slot v)
  | getGlobal => exact of_harmless (Harmless.readName.bind fun name => .getGlobal name)
  | defineGlobal => exact bind .readName fun name => defineGlobal name
  | setGlobal => exact bind .readName fun name => setGlobal name
  | getUpvalue => exact of_harmless .getUpvalue
  | setUpvalue => exact setUpvalue
  | getProperty => exact of_harmless .getProperty
  | getSuper =>
      exact of_harmless
        (Harmless.readName.bind fun name => Harmless.popClass.bind fun c => .bindMethod c name)
  | equal => exact of_harmless (Harmless.pop.bind fun _ => Harmless.pop.bind fun _ => .push _)
  | greater | less | subtract | multiply | divide => exact of_harmless (.binary _)
  | add => exact of_harmless .add
  | not => exact of_harmless (Harmless.pop.bind fun _ => .push _)
  | negate => exact of_harmless .negate
  | print => exact printTop
  | assert => exact of_harmless .assertTop
  | jump => exact of_harmless .jump
  | jumpIfFalse => exact of_harmless .jumpIfFalse
  | loop => exact of_harmless .loop
  | call =>
      exact of_harmless (Harmless.readByte.bind fun n => (Harmless.peek _).bind fun v => .callValue v _)
  | invoke =>
      exact of_harmless (Harmless.readName.bind fun name => Harmless.readByte.bind fun n => .invoke name _)
  | superInvoke =>
      exact of_harmless (Harmless.readName.bind fun name => Harmless.readByte.bind fun n =>
        Harmless.popClass.bind fun c => .invokeFrom c name _)
  | closure => exact of_harmless .makeClosure
  | makeClass =>
      exact of_harmless (Harmless.readName.bind fun name => (Harmless.makeClass name).bind fun c => .push _)
  | inherit => exact inherit
  | method => exact defineMethod

end Cautious

/-! ## Instructions that go on behind a change -/

/-- Reading code leaves the stack alone. -/
theorem stack_of_readByte {b : UInt8} (h : readByte m = .ok b m') : m'.stack = m.stack := by
  have hstack : Leaves (fun m' => m'.stack = m.stack) readByte m := by
    rw [readByte]
    refine .get_bind ?_
    split
    · exact rfl
    · split <;> exact rfl
  rwa [Leaves, h] at hstack

theorem stack_of_readName {name : String} (h : readName m = .ok name m') : m'.stack = m.stack := by
  obtain ⟨v, m₁, hconstant, h⟩ := bind_eq_ok.mp h
  obtain ⟨b, m₂, hbyte, hconstant⟩ := bind_eq_ok.mp hconstant
  obtain ⟨f, m₃, hframe, hconstant⟩ := bind_eq_ok.mp hconstant
  obtain ⟨_, _, ⟨⟩, hconstant⟩ := bind_eq_ok.mp hconstant
  obtain ⟨_, _, ⟨⟩, hframe⟩ := bind_eq_ok.mp hframe
  obtain ⟨-, rfl⟩ := orViolate_eq_ok hframe
  obtain ⟨-, rfl⟩ := orViolate_eq_ok hconstant
  cases v with
  | string s =>
      cases h
      exact stack_of_readByte hbyte
  | _ => cases h

/-- Behind the change the object and the value are still on the stack, so that there is room to leave the
value alone. -/
theorem setProperty_retains (hm : m.stack.size ≤ maxStack) {e : Fault}
    (h : setProperty m = .error e m') : m.Retains m' := by
  rw [setProperty, bind_apply, peek_values] at h
  cases hv : m.values[1]? with
  | none =>
      rw [hv] at h
      cases h
      exact .refl m
  | some receiver =>
      rw [hv] at h
      obtain ⟨above, below, hvs, habove⟩ := values_of_getElem? hv
      obtain ⟨v, rfl⟩ := List.length_eq_one_iff.mp habove
      cases receiver with
      | object o =>
          dsimp only at h
          rw [bind_apply] at h
          cases hname : readName m with
          | error fault m₁ =>
              rw [hname] at h
              cases h
              exact Harmless.readName.retains_of_error hname
          | ok name m₁ =>
              have hvs₁ : m₁.values = v :: .object o :: below := by
                rw [values, stack_of_readName hname]
                exact hvs
              have hroom : below.length < maxStack := by
                have := congrArg List.length hvs
                rw [← size_stack] at this
                simp only [List.length_append, List.length_cons, List.length_nil] at this
                omega
              have hchanged (s : Store) : ({ m₁.setValues (.object o :: below) with store := s }).values =
                  .object o :: below := values_setValues m₁ _
              have hpop (s : Store) : pop { m₁.setValues (.object o :: below) with store := s } =
                  .ok (.object o) ({ m₁.setValues below with store := s }) := pop_cons (hchanged s)
              have hleft (s : Store) : ({ m₁.setValues below with store := s }).values = below :=
                values_setValues m₁ below
              have hpush (s : Store) : ∃ m₂, push v { m₁.setValues below with store := s } = .ok () m₂ :=
                ⟨_, by rw [push_apply, if_pos (by rw [hleft]; exact hroom)]⟩
              rw [hname] at h
              simp only [bind_apply, pop_cons hvs₁, changeStore, modify_apply, store_setValues, hpop] at h
              obtain ⟨m₂, hm₂⟩ := hpush (m₁.store.setField o name v)
              cases hm₂.symm.trans h
      | _ =>
          cases h
          exact .refl m

/-- An action that changes at most captured variables of what lasts, however it ends. -/
def Lasting (x : Action α) : Prop :=
  ∀ m, Leaves m.Persists x m

theorem Harmless.lasting {x : Action α} (h : Harmless x) : Lasting x :=
  fun m => (h m).mono fun _ => Retains.toPersists

theorem Lasting.bind {x : Action α} {f : α → Action β} (hx : Lasting x) (hf : ∀ a, Lasting (f a)) :
    Lasting (x >>= f) := by
  intro m
  have hfirst := hx m
  refine Leaves.bind (fun a m' h => ?_) fun e m' h => ?_ <;> rw [Leaves, h] at hfirst
  · exact (hf a m').mono fun _ => hfirst.trans
  · exact hfirst

theorem lasting_closeFrom (slot : Nat) : Lasting (closeFrom slot) := fun m => by
  refine leaves_closeFrom ?_
  have hstore : (m.closed slot).store = { m.store with cells := (m.closed slot).store.cells } :=
    closeCells_eq _ _ _
  refine ⟨rfl, fun i t ht => ?_, fun i t ht => ?_, rfl⟩ <;> rwa [hstore]

theorem lasting_closeUpvalue : Lasting closeUpvalue :=
  (Harmless.slotBelow 0).lasting.bind fun top => (lasting_closeFrom top).bind fun _ =>
    (Harmless.pop.bind fun _ => .pure _).lasting

theorem lasting_leave : Lasting leave :=
  Harmless.pop.lasting.bind fun result m => .get_bind <| by
    split
    · exact (Harmless.violate _).lasting m
    · rename_i f frames hframes
      have hgone : Lasting (modify fun m : Machine => { m with frames } : Action PUnit) :=
        Harmless.lasting (.modify fun m => .beside rfl rfl rfl)
      refine hgone.bind (fun _ => (lasting_closeFrom f.base).bind fun _ =>
        ((Harmless.truncate f.base).bind fun _ => ?_).lasting) m
      split
      · exact .push result
      · exact .pure _

/-- These two fail only where code has captured what is not on the stack. -/
theorem halts_closeUpvalue : Halts (fun _ => False) closeUpvalue m :=
  (halts_slotBelow 0).bind fun top _ _ => (halts_closeFrom top).bind fun _ _ _ =>
    halts_pop.bind fun _ _ _ => .of_ok rfl

/-! ## Steps -/

/-- A failure that leaves what outlives the run as it is: where the script did something wrong also the
captured variables. -/
def Spent (m : Machine) (e : Fault) (m' : Machine) : Prop :=
  m.Persists m' ∧ ∀ r, e = .runtime r → m.Retains m'

theorem Retains.spent (h : m.Retains m') (e : Fault) : m.Spent e m' :=
  ⟨h.toPersists, fun _ _ => h⟩

theorem Retains.then {e : Fault} (h : m.Retains m') (h' : m'.Spent e m'') : m.Spent e m'' :=
  ⟨h.toPersists.trans h'.1, fun r hr => h.trans (h'.2 r hr)⟩

theorem Lasting.spent {x : Action α} (hx : Lasting x) (hhalts : Halts (fun _ => False) x m) {e : Fault}
    (h : x m = .error e m') : m.Spent e m' := by
  refine ⟨?_, fun r hr => ?_⟩
  · have := hx m
    rwa [Leaves, h] at this
  · subst hr
    exact (hhalts r m' h).elim

theorem spent_of_execute (hm : m.stack.size ≤ maxStack) {op : Opcode} {e : Fault}
    (h : execute op m = .error e m') : m.Spent e m' := by
  by_cases hset : op = .setProperty
  · subst hset
    exact (setProperty_retains hm h).spent e
  by_cases hclose : op = .closeUpvalue
  · subst hclose
    exact lasting_closeUpvalue.spent halts_closeUpvalue h
  by_cases hret : op = .ret
  · subst hret
    exact lasting_leave.spent (halts_leave hm) h
  exact (Cautious.execute hset hclose hret m e m' h).spent e

theorem spent_of_step (hm : m.stack.size ≤ maxStack) {e : Fault} (h : step m = .error e m') :
    m.Spent e m' := by
  rw [step, bind_apply] at h
  cases hread : readByte m with
  | error fault m₁ =>
      rw [hread] at h
      cases h
      exact (Harmless.readByte.retains_of_error hread).spent e
  | ok b m₁ =>
      rw [hread] at h
      dsimp only at h
      refine (Harmless.readByte.retains hread).then ?_
      cases hop : Opcode.ofByte? b with
      | none =>
          rw [hop] at h
          cases h
          exact (Retains.refl _).spent _
      | some op =>
          rw [hop] at h
          exact spent_of_execute (stack_of_readByte hread ▸ hm) h

/-! ## Runs -/

/-- The states that a run passes through from one on, behind each instruction. -/
inductive GetsTo (start : Machine) : Machine → Prop
  | start : GetsTo start start
  | step {m m' : Machine} : GetsTo start m → Machine.step m.traceStep = .ok () m' → m'.frames ≠ [] →
      GetsTo start m'

/-- What fails is entering the function `f`, where nothing has been executed yet, or the instruction
that `before` comes to. -/
inductive FailsAt (f : Function) (m : Machine) (e : Fault) : (before after : Machine) → Prop
  | enter {after} : enter f m = .error e after → FailsAt f m e m after
  | step {started before after} : Machine.enter f m = .ok () started → GetsTo started before →
      Machine.step before.traceStep = .error e after → FailsAt f m e before after

theorem GetsTo.working {start : Machine} (hs : start.Working) (h : GetsTo start m) : m.Working := by
  induction h with
  | start => exact hs
  | step _ hstep hactive ih =>
      exact (ih.traceStep.step_ok hstep).resolve_right fun h => hactive h.frames

/-- A run that fails has come to the instruction that fails. -/
theorem GetsTo.of_failed {start : Machine} {budget : Nat} {failure : Failure} (h : GetsTo start m)
    (hrun : m.run budget = (.failed failure, m')) :
    ∃ before after, GetsTo start before ∧ Machine.step before.traceStep = .error failure.fault after ∧
      m' = (after.abort failure.fault).2 := by
  obtain ⟨before, after, hbefore, hstep, habort⟩ := fails_of_run (P := GetsTo start) .step h hrun
  exact ⟨before, after, hbefore, hstep, by rw [habort]⟩

theorem retains_record (m : Machine) (level : LogLevel) (text : String) :
    m.Retains (m.record level text) := by
  refine .beside rfl rfl ?_
  change (m.console.record level text).output = _
  rw [Console.record]
  split <;> rfl

/-- Tracing writes to the log. -/
theorem retains_traceStep (m : Machine) : m.Retains m.traceStep := by
  rw [traceStep]
  split
  · exact .refl m
  · split
    · exact (retains_record _ _ _).trans (retains_record _ _ _)
    · exact .refl m

/-- Giving up a run writes to the log and empties the stack. -/
theorem Spent.abort {e : Fault} (h : m.Spent e m') : m.Spent e (m'.abort e).2 := by
  have hgone : m'.Retains (m'.abort e).2 :=
    (retains_record m' _ _).trans (.beside rfl rfl rfl)
  exact ⟨h.1.trans hgone.toPersists, fun r hr => (h.2 r hr).trans hgone⟩

theorem harmless_enter (f : Function) : Harmless (enter f) :=
  (Harmless.newClosure f #[]).bind fun c => (Harmless.push (.closure c)).bind fun _ => .call c 0

/-- An instruction that fails, of whatever code, leaves what outlives the run as it was. So what a failed
run leaves behind is what the instructions before the failing one have made of it. -/
theorem failure_persists (hm : m.stack.size ≤ maxStack) :
    (∀ e m', step m = .error e m' → m.Spent e m') ∧
      (m.AtRest → ∀ budget f failure m', m.interpret budget f = (.failed failure, m') →
        ∃ before after, FailsAt f m failure.fault before after ∧ before.Spent failure.fault m') := by
  refine ⟨fun e m' => spent_of_step hm, fun hrest budget f failure m' hrun => ?_⟩
  rw [interpret] at hrun
  cases henter : enter f m with
  | error fault after =>
      rw [henter] at hrun
      obtain ⟨heq, rfl⟩ := Prod.mk.inj hrun
      obtain rfl := Outcome.failed.inj heq
      have hspent : m.Spent fault after := ((harmless_enter f).retains_of_error henter).spent fault
      exact ⟨m, after, .enter henter, hspent.abort⟩
  | ok u started =>
      rw [henter] at hrun
      obtain ⟨before, after, hgets, hstep, rfl⟩ := GetsTo.start.of_failed hrun
      have hworking := (hgets.working ((hrest.enter f).2 u started henter)).traceStep
      have hspent : before.Spent failure.fault after :=
        (retains_traceStep before).then (spent_of_step hworking.stack hstep)
      exact ⟨before, after, .step henter hgets hstep, hspent.abort⟩

/-- Code that prints and then takes one value too many from the stack. -/
theorem failure_persists_printed :
    let code : Chunk := ⟨#[(2, 1), (24, 1), (4, 1), (4, 1)], #[]⟩
    let m : Machine := { Machine.new {} with store := { (Machine.new {}).store with chunks := #[code] } }
    m.stack.size ≤ maxStack ∧ m.AtRest ∧ ∃ m',
      m.interpret 10 ⟨0, "", 0, 0⟩ = (.failed ⟨.violation .stackUnderflow, [⟨1, ""⟩]⟩, m') ∧
      m'.console.output = "true\n" ∧
      ∃ before after, FailsAt ⟨0, "", 0, 0⟩ m (.violation .stackUnderflow) before after ∧
        before.Spent (.violation .stackUnderflow) m' := by
  intro code m
  have hrest : m.AtRest := ⟨rfl, rfl, rfl⟩
  have hstack : m.stack.size ≤ maxStack := Nat.zero_le _
  have hrun : (m.interpret 10 ⟨0, "", 0, 0⟩).1 = .failed ⟨.violation .stackUnderflow, [⟨1, ""⟩]⟩ := by
    decide +kernel
  have houtput : (m.interpret 10 ⟨0, "", 0, 0⟩).2.console.output = "true\n" := by decide +kernel
  exact ⟨hstack, hrest, _, Prod.ext hrun rfl, houtput,
    (failure_persists hstack).2 hrest 10 _ _ _ (Prod.ext hrun rfl)⟩

end LoxMachine.Machine
