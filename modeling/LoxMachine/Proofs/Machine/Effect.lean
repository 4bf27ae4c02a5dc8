import LoxMachine.Proofs.Code.Instruction
import LoxMachine.Proofs.Machine.Success

/-!
# What instructions do

`Effect f q ins m m'`: the instruction `ins`, behind which the frame `f` goes on at `q`, succeeds on
the machine `m` and leaves `m'`. There is one rule for each way in which an instruction can succeed.

Main statement: `effect_of_step`, a step that succeeds has the effect of its instruction.
-/

namespace LoxMachine

namespace Machine

/-! ## Captured variables -/

/-- The value of a captured variable. -/
def reads? (m : Machine) (cell : Nat) : Option Value :=
  match m.store.cells[cell]? with
  | some (.closed v) => some v
  | some (.inSlot slot) => atSlot? m.values slot
  | none => none

/-- The cells that a new closure takes from the frame `f`. -/
inductive Captures (f : Frame) : List Capture → Machine → List Nat → Machine → Prop
  | nil {m} : Captures f [] m [] m
  | local {index cs m cells m'} : Captures f cs (m.captured (f.base + index)).2 cells m' →
      Captures f (⟨index, true⟩ :: cs) m ((m.captured (f.base + index)).1 :: cells) m'
  | outer {index cell cs m cells m'} : f.closure.cells[index]? = some cell →
      Captures f cs m cells m' → Captures f (⟨index, false⟩ :: cs) m (cell :: cells) m'

/-! ## Calls -/

/-- The machine in a new call, whose slots begin at `base`. -/
def entered (m : Machine) (c : Closure) (base : Nat) : Machine :=
  { m with frames := ⟨c, 0, base⟩ :: m.frames }

@[simp] theorem values_entered (m : Machine) (c : Closure) (base : Nat) :
    (m.entered c base).values = m.values :=
  rfl

/-- The object that is made next. -/
def nextObject (m : Machine) (c : Class) : Object :=
  (m.store.newObject c).1

/-- A call of a value with arguments that lie, with the callee below them, on top of `rest`. -/
inductive Calling (m : Machine) (args rest : List Value) : Value → Machine → Prop
  | closure {c} : args.length = c.function.arity →
      Calling m args rest (.closure c) (m.entered c rest.length)
  | bound {id receiver c} : args.length = c.function.arity →
      Calling m args rest (.bound id receiver c)
        ((m.setValues (args ++ receiver :: rest)).entered c rest.length)
  | construct {c g} : m.store.method? c initName = some g → args.length = g.function.arity →
      Calling m args rest (.cls c)
        (({ m with store := (m.store.newObject c).2 }.setValues
          (args ++ Value.object (m.nextObject c) :: rest)).entered g rest.length)
  | create {c} : m.store.method? c initName = none → args = [] →
      Calling m args rest (.cls c)
        ({ m with store := (m.store.newObject c).2 }.setValues (Value.object (m.nextObject c) :: rest))
  | native {n} :
      Calling m args rest (.native n) (m.setValues (m.store.apply n m.time args.reverse :: rest))

/-- The method of a receiver below `args`. -/
inductive Invoking (m : Machine) (args rest : List Value) (c : Class) (name : String) :
    Machine → Prop
  | method {g} : m.store.method? c name = some g → args.length = g.function.arity →
      Invoking m args rest c name (m.entered g rest.length)

end Machine

/-! ## Operators -/

/-- What an operation makes of its operands, the last one first, and what it prints. -/
def Opcode.operate : Opcode → List Value → Console → Option (List Value × Console)
  | .equal, [b, a], c => some ([.boolean (a.same b)], c)
  | .greater, [.number b, .number a], c => some ([.boolean (b.lt a)], c)
  | .less, [.number b, .number a], c => some ([.boolean (a.lt b)], c)
  | .add, [.number b, .number a], c => some ([.number (a.add b)], c)
  | .add, [.string b, .string a], c => some ([.string (a ++ b)], c)
  | .subtract, [.number b, .number a], c => some ([.number (a.sub b)], c)
  | .multiply, [.number b, .number a], c => some ([.number (a.mul b)], c)
  | .divide, [.number b, .number a], c => some ([.number (a.div b)], c)
  | .not, [v], c => some ([.boolean v.isFalsey], c)
  | .negate, [.number n], c => some ([.number n.neg], c)
  | .print, [v], c => some ([], c.printLine v.toString)
  | .assert, [.boolean true], c => some ([], c)
  | _, _, _ => none

open Machine

/-! ## Instructions -/

/-- How many values at the top of the stack an instruction drops or puts others in place of. -/
def Instr.replaces : Instr → Nat
  | .pop | .defineGlobal _ | .getProperty _ | .inherit | .method _ | .ret => 1
  | .setProperty _ | .getSuper _ => 2
  | .operator op => op.takes
  | .call n | .invoke _ n => n + 1
  | .superInvoke _ n => n + 2
  | _ => 0

/-- Assignments to local and captured variables. -/
def Instr.Assigns : Instr → Prop
  | .setLocal _ | .setUpvalue _ => True
  | _ => False

/-- Instructions at which variables leave the stack while closures may share them. -/
def Instr.Closes : Instr → Prop
  | .closeUpvalue | .ret => True
  | _ => False

inductive Effect (f : Frame) (q : Nat) : Instr → Machine → Machine → Prop
  | push {v m} : Effect f q (.push v) m ((m.goto q).setValues (v :: m.values))
  | pop {v vs m} : m.values = v :: vs → Effect f q .pop m ((m.goto q).setValues vs)
  | getLocal {n v m} : atSlot? m.values (f.base + n) = some v →
      Effect f q (.getLocal n) m ((m.goto q).setValues (v :: m.values))
  | setLocal {n v vs m} : m.values = v :: vs → f.base + n < m.values.length →
      Effect f q (.setLocal n) m ((m.goto q).setValues (setSlot m.values (f.base + n) v))
  | getGlobal {name v m} : m.globals[name]? = some v →
      Effect f q (.getGlobal name) m ((m.goto q).setValues (v :: m.values))
  | defineGlobal {name v vs m} : m.values = v :: vs →
      Effect f q (.defineGlobal name) m
        { (m.goto q).setValues vs with globals := m.globals.insert name v }
  | setGlobal {name v vs m} : m.values = v :: vs → m.globals.contains name = true →
      Effect f q (.setGlobal name) m { m.goto q with globals := m.globals.insert name v }
  | getUpvalue {i cell v m} : f.closure.cells[i]? = some cell → m.reads? cell = some v →
      Effect f q (.getUpvalue i) m ((m.goto q).setValues (v :: m.values))
  | setClosed {i cell old v vs m} : f.closure.cells[i]? = some cell →
      m.store.cells[cell]? = some (.closed old) → m.values = v :: vs →
      Effect f q (.setUpvalue i) m { m.goto q with store := m.store.setCell cell v }
  | setOpen {i cell slot v vs m} : f.closure.cells[i]? = some cell →
      m.store.cells[cell]? = some (.inSlot slot) → m.values = v :: vs → slot < m.values.length →
      Effect f q (.setUpvalue i) m ((m.goto q).setValues (setSlot m.values slot v))
  | getField {name o v vs m} : m.values = .object o :: vs → m.store.field? o name = some v →
      Effect f q (.getProperty name) m ((m.goto q).setValues (v :: vs))
  | getMethod {name o g vs m} : m.values = .object o :: vs → m.store.field? o name = none →
      m.store.method? o.cls name = some g →
      Effect f q (.getProperty name) m
        ({ m.goto q with store := (m.store.newBound (.object o) g).2 }.setValues
          ((m.store.newBound (.object o) g).1 :: vs))
  | setProperty {name o v vs m} : m.values = v :: .object o :: vs →
      Effect f q (.setProperty name) m
        ({ m.goto q with store := m.store.setField o name v }.setValues (v :: vs))
  | getSuper {name c r g vs m} : m.values = .cls c :: r :: vs → m.store.method? c name = some g →
      Effect f q (.getSuper name) m
        ({ m.goto q with store := (m.store.newBound r g).2 }.setValues
          ((m.store.newBound r g).1 :: vs))
  | operator {op top results console rest m} : m.values = top ++ rest →
      op.operate top m.console = some (results, console) →
      Effect f q (.operator op) m ({ m.goto q with console }.setValues (results ++ rest))
  | jump {p m} : Effect f q (.jump p) m (m.goto p)
  | branch {p v vs m} : m.values = v :: vs → v.isFalsey = true →
      Effect f q (.jumpIfFalse p) m (m.goto p)
  | stay {p v vs m} : m.values = v :: vs → v.isFalsey = false →
      Effect f q (.jumpIfFalse p) m (m.goto q)
  | loop {p m} : Effect f q (.loop p) m (m.goto p)
  | call {n args callee rest m m'} : m.values = args ++ callee :: rest → args.length = n →
      Calling (m.goto q) args rest callee m' → Effect f q (.call n) m m'
  | invokeField {name n args o v rest m m'} : m.values = args ++ .object o :: rest →
      args.length = n → m.store.field? o name = some v →
      Calling ((m.goto q).setValues (args ++ v :: rest)) args rest v m' →
      Effect f q (.invoke name n) m m'
  | invokeMethod {name n args o rest m m'} : m.values = args ++ .object o :: rest →
      args.length = n → m.store.field? o name = none →
      Invoking (m.goto q) args rest o.cls name m' → Effect f q (.invoke name n) m m'
  | superInvoke {name n c args r rest m m'} : m.values = .cls c :: (args ++ r :: rest) →
      args.length = n → Invoking ((m.goto q).setValues (args ++ r :: rest)) args rest c name m' →
      Effect f q (.superInvoke name n) m m'
  | closure {g captures cells m m₁} : Captures f captures m cells m₁ →
      Effect f q (.closure g captures) m
        ({ m₁.goto q with store := (m₁.store.newClosure g cells.toArray).2 }.setValues
          (.closure (m₁.store.newClosure g cells.toArray).1 :: m.values))
  | closeUpvalue {v vs m} : m.values = v :: vs →
      (∀ x ∈ m.openCells.takeWhile (vs.length ≤ ·.1), x.1 < m.values.length) →
      Effect f q .closeUpvalue m (((m.goto q).closed vs.length).setValues vs)
  | finish {g v vs m} : m.frames = [g] → m.values = v :: vs →
      (∀ x ∈ m.openCells.takeWhile (f.base ≤ ·.1), x.1 < vs.length) →
      Effect f q .ret m (({ m with frames := [] }.setValues vs).closed f.base |>.setValues
        (vs.drop (vs.length - f.base)))
  | ret {g g' fs v vs m} : m.frames = g :: g' :: fs → m.values = v :: vs →
      (∀ x ∈ m.openCells.takeWhile (f.base ≤ ·.1), x.1 < vs.length) →
      Effect f q .ret m (({ m with frames := g' :: fs }.setValues vs).closed f.base |>.setValues
        (v :: vs.drop (vs.length - f.base)))
  | makeClass {name m} :
      Effect f q (.makeClass name) m ({ m.goto q with store := (m.store.newClass name).2 }.setValues
        (.cls (m.store.newClass name).1 :: m.values))
  | inherit {child parent vs m} : m.values = .cls child :: .cls parent :: vs →
      Effect f q .inherit m
        ({ m.goto q with store := m.store.inherit parent child }.setValues (.cls parent :: vs))
  | method {name g c vs m} : m.values = .closure g :: .cls c :: vs →
      Effect f q (.method name) m
        ({ m.goto q with store := m.store.setMethod c name g }.setValues (.cls c :: vs))

/-! ## Calls that succeed -/

section Calls

variable {m m' : Machine} {args rest : List Value} {callee v : Value} {c : Class} {name : String}
  {u : Unit}

theorem slot_callee (h : m.values = args ++ callee :: rest) :
    args.length < m.values.length ∧ m.values.length - 1 - args.length = rest.length := by
  rw [h, List.length_append, List.length_cons]
  omega

theorem call_eq_ok {g : Closure} (hvs : m.values = args ++ callee :: rest)
    (h : Machine.call g args.length m = .ok u m') :
    args.length = g.function.arity ∧ m' = m.entered g rest.length := by
  obtain ⟨hlt, hslot⟩ := slot_callee hvs
  rw [call_apply g args.length hlt] at h
  split at h
  · cases h
  · split at h
    · cases h
      rw [hslot]
      exact ⟨not_not.mp (by assumption), rfl⟩
    · cases h

theorem invoking_of_ok (hvs : m.values = args ++ callee :: rest)
    (h : invokeFrom c name args.length m = .ok u m') : Invoking m args rest c name m' := by
  obtain ⟨g, m₁, hmethod, hcall⟩ := bind_eq_ok.mp h
  obtain ⟨hg, rfl⟩ := method_eq_ok hmethod
  obtain ⟨harity, rfl⟩ := call_eq_ok hvs hcall
  exact .method hg harity

/-- A call of a method finds its receiver below the arguments. -/
theorem values_of_invokeFrom {n : Nat} (h : invokeFrom c name n m = .ok u m') :
    ∃ args r rest, m.values = args ++ r :: rest ∧ args.length = n := by
  obtain ⟨g, m₁, hmethod, hcall⟩ := bind_eq_ok.mp h
  obtain ⟨-, rfl⟩ := method_eq_ok hmethod
  obtain ⟨r, hr⟩ : ∃ r, m.values[n]? = some r := by
    by_contra hnone
    have hge : ¬n < m.values.length := fun hlt => hnone ⟨_, List.getElem?_eq_getElem hlt⟩
    simp [call, slotBelow_apply, hge] at hcall
    split at hcall <;> cases hcall
  obtain ⟨args, rest, hvs, hlen⟩ := values_of_getElem? hr
  exact ⟨args, r, rest, hvs, hlen⟩

/-- A value written over the callee. -/
theorem write_callee {u : Unit} (hvs : m.values = args ++ callee :: rest)
    (h : writeSlot rest.length v m = .ok u m') : m' = m.setValues (args ++ v :: rest) := by
  obtain ⟨-, rfl⟩ := writeSlot_eq_ok h
  rw [hvs, setSlot_append]

theorem calling_of_ok (hvs : m.values = args ++ callee :: rest)
    (h : callValue v args.length m = .ok u m') : Calling m args rest v m' := by
  obtain ⟨slot, m₁, hslot, h⟩ := bind_eq_ok.mp h
  obtain ⟨-, rfl, rfl⟩ := slotBelow_eq_ok hslot
  obtain ⟨-, hlen⟩ := slot_callee hvs
  rw [hlen] at h
  cases v with
  | closure g =>
      obtain ⟨harity, rfl⟩ := call_eq_ok hvs h
      exact .closure harity
  | bound id receiver g =>
      obtain ⟨_, m₂, hwrite, hcall⟩ := bind_eq_ok.mp h
      obtain rfl := write_callee hvs hwrite
      obtain ⟨harity, rfl⟩ := call_eq_ok (values_setValues _ _) hcall
      exact .bound harity
  | cls c =>
      obtain ⟨object, m₂, hmake, h⟩ := bind_eq_ok.mp h
      cases hmake
      obtain ⟨_, m₃, hwrite, h⟩ := bind_eq_ok.mp h
      obtain rfl := write_callee (m := { m with store := (m.store.newObject c).2 }) hvs hwrite
      obtain ⟨m₄, m₅, ⟨⟩, h⟩ := bind_eq_ok.mp h
      have hmethod : (m.store.newObject c).2.method? c initName = m.store.method? c initName := rfl
      simp only [store_setValues, hmethod] at h
      cases hinit : m.store.method? c initName with
      | none =>
          rw [hinit] at h
          dsimp only at h
          split at h
          · cases h
          · cases h
            have hnil : args = [] := List.length_eq_zero_iff.mp (not_not.mp (by assumption))
            subst hnil
            exact .create hinit rfl
      | some g =>
          rw [hinit] at h
          obtain ⟨harity, rfl⟩ := call_eq_ok (values_setValues _ _) h
          exact .construct hinit harity
  | native n =>
      obtain ⟨m₂, m₃, ⟨⟩, h⟩ := bind_eq_ok.mp h
      obtain ⟨_, m₄, htruncate, hpush⟩ := bind_eq_ok.mp h
      rw [truncate_apply] at htruncate
      cases htruncate
      obtain rfl := push_eq_ok hpush rfl
      have hdrop : m.values.drop (m.values.length - rest.length) = rest := by
        rw [hvs, show (args ++ callee :: rest).length - rest.length = (args ++ [callee]).length by
          simp; omega, show args ++ callee :: rest = (args ++ [callee]) ++ rest by simp, List.drop_left]
      have htake : m.values.take (m.values.length - (rest.length + 1)) = args := by
        rw [hvs, show (args ++ callee :: rest).length - (rest.length + 1) = args.length by simp,
          List.take_left]
      rw [setValues_setValues, values_setValues, hdrop, toList_extract_stack, htake]
      exact .native
  | _ => cases h

end Calls

/-! ## Steps that succeed -/

section Steps

variable {f : Frame} {fs : List Frame} {q : Nat} {m m' : Machine} {u : Unit}

theorem values_captured (m : Machine) (slot : Nat) : (m.captured slot).2.values = m.values := by
  rw [captured]
  cases m.openCells.lookup slot <;> rfl

theorem Machine.Captures.values {cs : List Capture} {cells : List Nat} (h : Captures f cs m cells m') :
    m'.values = m.values := by
  induction h with
  | nil => rfl
  | «local» _ ih => exact ih.trans (values_captured _ _)
  | outer _ _ ih => exact ih

theorem Machine.Captures.frames_eq {cs : List Capture} {cells : List Nat}
    (h : Captures f cs m cells m') : m'.frames = m.frames := by
  induction h with
  | nil => rfl
  | «local» _ ih => exact ih.trans (frames_captured _ _)
  | outer _ _ ih => exact ih

theorem Machine.Captures.chunks_eq {cs : List Capture} {cells : List Nat}
    (h : Captures f cs m cells m') : m'.store.chunks = m.store.chunks := by
  induction h with
  | nil => rfl
  | «local» _ ih => exact ih.trans (chunks_captured _ _)
  | outer _ _ ih => exact ih

theorem captures_of_ok {p : Nat} {cs : List Capture} {cells cells' : Array Nat}
    (h : m.frames = f :: fs) (hrun : captureAll p cs cells (m.goto p) = .ok cells' m') :
    ∃ new m₁, cells' = cells ++ new.toArray ∧ Captures f cs m new m₁ ∧
      m' = m₁.goto (p + 2 * cs.length) := by
  induction cs generalizing p m cells with
  | nil =>
      cases hrun
      exact ⟨[], m, by simp, .nil, rfl⟩
  | cons c cs ih =>
      obtain ⟨index, fromLocal⟩ := c
      obtain ⟨_, m₁, hmove, hrun⟩ := bind_eq_ok.mp hrun
      rw [moveTo_goto h] at hmove
      cases hmove
      obtain ⟨_, m₁, hframe, hrun⟩ := bind_eq_ok.mp hrun
      rw [frame_goto h] at hframe
      cases hframe
      have hlen : p + 2 + 2 * cs.length = p + 2 * (⟨index, fromLocal⟩ :: cs).length := by
        rw [List.length_cons]
        omega
      cases fromLocal with
      | true =>
          rw [if_pos rfl] at hrun
          obtain ⟨cell, m₁, hcell, hrun⟩ := bind_eq_ok.mp hrun
          rw [capture_apply, captured_goto] at hcell
          cases hcell
          obtain ⟨new, m₁, rfl, hcaptures, rfl⟩ := ih ((frames_captured m _).trans h) hrun
          exact ⟨_, m₁, by simp, .local hcaptures, by rw [hlen]⟩
      | false =>
          rw [if_neg Bool.false_ne_true] at hrun
          obtain ⟨cell, m₁, hread, hrun⟩ := bind_eq_ok.mp hrun
          obtain ⟨hcell, rfl⟩ := orViolate_eq_ok hread
          obtain ⟨new, m₁, rfl, hcaptures, rfl⟩ := ih h hrun
          exact ⟨_, m₁, by simp, .outer hcell hcaptures, by rw [hlen]⟩

/-- An operation without operands succeeds where `operate` says what it makes. -/
theorem binary_eq_ok {g : Number → Number → Value} (h : binary g m = .ok u m') :
    ∃ a b rest, m.values = .number b :: .number a :: rest ∧ m' = m.setValues (g a b :: rest) := by
  obtain ⟨y, m₁, hy, h⟩ := bind_eq_ok.mp h
  obtain ⟨vs, hvs, rfl⟩ := pop_eq_ok hy
  obtain ⟨x, m₂, hx, h⟩ := bind_eq_ok.mp h
  obtain ⟨rest, hrest, rfl⟩ := pop_eq_ok hx
  rw [values_setValues] at hrest
  subst hrest
  split at h
  · obtain rfl := push_eq_ok h rfl
    exact ⟨_, _, rest, hvs, by simp⟩
  · cases h

theorem operate_of_ok {op : Opcode} (hop : op.IsOperator) (h : execute op m = .ok u m') :
    ∃ top rest results console, m.values = top ++ rest ∧
      op.operate top m.console = some (results, console) ∧
      m' = { m with console }.setValues (results ++ rest) := by
  cases op with
  | greater | less | subtract | multiply | divide =>
      obtain ⟨a, b, rest, hvs, rfl⟩ := binary_eq_ok h
      exact ⟨[.number b, .number a], rest, [_], m.console, hvs, rfl, rfl⟩
  | equal =>
      obtain ⟨y, m₁, hy, h⟩ := bind_eq_ok.mp h
      obtain ⟨vs, hvs, rfl⟩ := pop_eq_ok hy
      obtain ⟨x, m₂, hx, h⟩ := bind_eq_ok.mp h
      obtain ⟨rest, hrest, rfl⟩ := pop_eq_ok hx
      rw [values_setValues] at hrest
      subst hrest
      obtain rfl := push_eq_ok h rfl
      exact ⟨[y, x], rest, [_], m.console, hvs, rfl, by simp⟩
  | add =>
      obtain ⟨x, m₁, hpeek, h⟩ := bind_eq_ok.mp h
      obtain ⟨hx, rfl⟩ := peek_eq_ok hpeek
      obtain ⟨y, m₁, hpeek, h⟩ := bind_eq_ok.mp h
      obtain ⟨hy, rfl⟩ := peek_eq_ok hpeek
      split at h
      · obtain ⟨a, b, rest, hvs, rfl⟩ := binary_eq_ok h
        exact ⟨[.number b, .number a], rest, [_], m.console, hvs, rfl, rfl⟩
      · obtain ⟨y', m₁, hpop, h⟩ := bind_eq_ok.mp h
        obtain ⟨vs, hvs, rfl⟩ := pop_eq_ok hpop
        obtain ⟨x', m₂, hpop, h⟩ := bind_eq_ok.mp h
        obtain ⟨rest, hrest, rfl⟩ := pop_eq_ok hpop
        rw [values_setValues] at hrest
        subst hrest
        rw [hvs] at hx hy
        obtain rfl := Option.some.inj hx
        obtain rfl := Option.some.inj hy
        obtain rfl := push_eq_ok h rfl
        exact ⟨[.string _, .string _], rest, [_], m.console, hvs, rfl, by simp⟩
      · cases h
  | not =>
      obtain ⟨v, m₁, hv, h⟩ := bind_eq_ok.mp h
      obtain ⟨rest, hvs, rfl⟩ := pop_eq_ok hv
      obtain rfl := push_eq_ok h rfl
      exact ⟨[v], rest, [_], m.console, hvs, rfl, by simp⟩
  | negate =>
      obtain ⟨v, m₁, hv, h⟩ := bind_eq_ok.mp h
      obtain ⟨rest, hvs, rfl⟩ := pop_eq_ok hv
      cases v with
      | number n =>
          obtain rfl := push_eq_ok h rfl
          exact ⟨[.number n], rest, [_], m.console, hvs, rfl, by simp⟩
      | _ => cases h
  | print =>
      obtain ⟨v, m₁, hv, h⟩ := bind_eq_ok.mp h
      obtain ⟨rest, hvs, rfl⟩ := pop_eq_ok hv
      cases h
      exact ⟨[v], rest, _, _, hvs, rfl, rfl⟩
  | assert =>
      obtain ⟨v, m₁, hv, h⟩ := bind_eq_ok.mp h
      obtain ⟨rest, hvs, rfl⟩ := pop_eq_ok hv
      split at h
      · cases h
        exact ⟨[.boolean true], rest, _, _, hvs, rfl, rfl⟩
      · cases h
      · cases h
  | _ => cases hop

section Exec

variable {α : Type} {p : Nat} {name : String} (h : m.frames = f :: fs)
include h

theorem frame_eq_ok {g : Frame} (hrun : frame (m.goto p) = .ok g m') :
    { f with ip := p } = g ∧ m.goto p = m' := by
  rw [frame_goto h] at hrun
  cases hrun
  exact ⟨rfl, rfl⟩

theorem moveTo_eq_ok {r : Nat} (hrun : moveTo r (m.goto p) = .ok u m') : m' = m.goto r := by
  rw [moveTo_goto h] at hrun
  cases hrun
  rfl

/-- What is done behind the operands. -/
theorem eq_ok_of_moveTo {r : Nat} {x : Action α} {a : α}
    (hrun : (moveTo r >>= fun _ => x) (m.goto p) = .ok a m') : x (m.goto r) = .ok a m' := by
  obtain ⟨_, m₁, hmove, hrun⟩ := bind_eq_ok.mp hrun
  obtain rfl := moveTo_eq_ok h hmove
  exact hrun

/-! ### Variables -/

theorem effect_of_getLocal {n : Nat} (hrun : (Instr.getLocal n).exec q (m.goto p) = .ok u m') :
    Effect f q (.getLocal n) m m' := by
  replace hrun := eq_ok_of_moveTo h hrun
  obtain ⟨g, m₂, h₂, hrun⟩ := bind_eq_ok.mp hrun
  obtain ⟨rfl, rfl⟩ := frame_eq_ok h h₂
  obtain ⟨v, m₃, h₃, hrun⟩ := bind_eq_ok.mp hrun
  obtain ⟨hv, rfl⟩ := readSlot_eq_ok h₃
  obtain rfl := push_eq_ok hrun rfl
  exact .getLocal hv

theorem effect_of_setLocal {n : Nat} (hrun : (Instr.setLocal n).exec q (m.goto p) = .ok u m') :
    Effect f q (.setLocal n) m m' := by
  replace hrun := eq_ok_of_moveTo h hrun
  obtain ⟨g, m₂, h₂, hrun⟩ := bind_eq_ok.mp hrun
  obtain ⟨rfl, rfl⟩ := frame_eq_ok h h₂
  obtain ⟨v, m₃, h₃, hrun⟩ := bind_eq_ok.mp hrun
  obtain ⟨hv, rfl⟩ := peek_eq_ok h₃
  obtain ⟨vs, hvs⟩ := values_of_top hv
  obtain ⟨hlt, rfl⟩ := writeSlot_eq_ok hrun
  exact .setLocal hvs hlt

theorem effect_of_getGlobal (hrun : (Instr.getGlobal name).exec q (m.goto p) = .ok u m') :
    Effect f q (.getGlobal name) m m' := by
  replace hrun := eq_ok_of_moveTo h hrun
  obtain ⟨_, _, ⟨⟩, hrun⟩ := bind_eq_ok.mp hrun
  rw [globals_goto] at hrun
  cases hv : m.globals[name]? with
  | none =>
      rw [hv] at hrun
      cases hrun
  | some v =>
      rw [hv] at hrun
      obtain rfl := push_eq_ok hrun rfl
      exact .getGlobal hv

theorem effect_of_setGlobal (hrun : (Instr.setGlobal name).exec q (m.goto p) = .ok u m') :
    Effect f q (.setGlobal name) m m' := by
  replace hrun := eq_ok_of_moveTo h hrun
  obtain ⟨v, m₂, h₂, hrun⟩ := bind_eq_ok.mp hrun
  obtain ⟨hv, rfl⟩ := peek_eq_ok h₂
  obtain ⟨vs, hvs⟩ := values_of_top hv
  obtain ⟨_, _, ⟨⟩, hrun⟩ := bind_eq_ok.mp hrun
  rw [Machine.ite_apply] at hrun
  split at hrun
  · cases hrun
    exact .setGlobal hvs (by assumption)
  · cases hrun

theorem effect_of_getUpvalue {i : Nat} (hrun : (Instr.getUpvalue i).exec q (m.goto p) = .ok u m') :
    Effect f q (.getUpvalue i) m m' := by
  replace hrun := eq_ok_of_moveTo h hrun
  obtain ⟨g, m₂, h₂, hrun⟩ := bind_eq_ok.mp hrun
  obtain ⟨rfl, rfl⟩ := frame_eq_ok h h₂
  obtain ⟨cell, m₃, h₃, hrun⟩ := bind_eq_ok.mp hrun
  obtain ⟨hcell, rfl⟩ := orViolate_eq_ok h₃
  obtain ⟨_, _, ⟨⟩, hrun⟩ := bind_eq_ok.mp hrun
  simp only [store_goto] at hrun
  cases hfound : m.store.cells[cell]? with
  | none =>
      rw [hfound] at hrun
      cases hrun
  | some found =>
      rw [hfound] at hrun
      cases found with
      | closed v =>
          obtain rfl := push_eq_ok hrun rfl
          exact .getUpvalue hcell (by rw [reads?, hfound])
      | inSlot slot =>
          obtain ⟨v, m₃, h₃, hrun⟩ := bind_eq_ok.mp hrun
          obtain ⟨hv, rfl⟩ := readSlot_eq_ok h₃
          obtain rfl := push_eq_ok hrun rfl
          exact .getUpvalue hcell (by rw [reads?, hfound]; exact hv)

theorem effect_of_setUpvalue {i : Nat} (hrun : (Instr.setUpvalue i).exec q (m.goto p) = .ok u m') :
    Effect f q (.setUpvalue i) m m' := by
  replace hrun := eq_ok_of_moveTo h hrun
  obtain ⟨g, m₂, h₂, hrun⟩ := bind_eq_ok.mp hrun
  obtain ⟨rfl, rfl⟩ := frame_eq_ok h h₂
  obtain ⟨cell, m₃, h₃, hrun⟩ := bind_eq_ok.mp hrun
  obtain ⟨hcell, rfl⟩ := orViolate_eq_ok h₃
  obtain ⟨v, m₄, h₄, hrun⟩ := bind_eq_ok.mp hrun
  obtain ⟨hv, rfl⟩ := peek_eq_ok h₄
  obtain ⟨vs, hvs⟩ := values_of_top hv
  obtain ⟨_, _, ⟨⟩, hrun⟩ := bind_eq_ok.mp hrun
  simp only [store_goto] at hrun
  cases hfound : m.store.cells[cell]? with
  | none =>
      rw [hfound] at hrun
      cases hrun
  | some found =>
      rw [hfound] at hrun
      cases found with
      | closed old =>
          cases hrun
          exact .setClosed hcell hfound hvs
      | inSlot slot =>
          obtain ⟨hlt, rfl⟩ := writeSlot_eq_ok hrun
          exact .setOpen hcell hfound hvs hlt

/-! ### Properties -/

theorem effect_of_getProperty (hrun : (Instr.getProperty name).exec q (m.goto p) = .ok u m') :
    Effect f q (.getProperty name) m m' := by
  obtain ⟨v, m₁, h₁, hrun⟩ := bind_eq_ok.mp hrun
  obtain ⟨hv, rfl⟩ := peek_eq_ok h₁
  obtain ⟨vs, hvs⟩ := values_of_top hv
  cases v with
  | object o =>
      replace hrun := eq_ok_of_moveTo h hrun
      obtain ⟨_, _, ⟨⟩, hrun⟩ := bind_eq_ok.mp hrun
      simp only [store_goto] at hrun
      cases hfield : m.store.field? o name with
      | some v =>
          rw [hfield] at hrun
          obtain ⟨w, m₂, h₂, hrun⟩ := bind_eq_ok.mp hrun
          obtain ⟨vs', hvs', rfl⟩ := pop_eq_ok h₂
          obtain ⟨-, rfl⟩ := List.cons.inj (hvs.symm.trans hvs')
          obtain rfl := push_eq_ok hrun rfl
          rw [values_setValues]
          exact .getField hvs hfield
      | none =>
          rw [hfield] at hrun
          obtain ⟨g, r, vs', hg, hvs', rfl⟩ := bindMethod_eq_ok hrun
          obtain ⟨rfl, rfl⟩ := List.cons.inj (hvs.symm.trans hvs')
          exact .getMethod hvs hfield hg
  | _ => cases hrun

theorem effect_of_setProperty (hrun : (Instr.setProperty name).exec q (m.goto p) = .ok u m') :
    Effect f q (.setProperty name) m m' := by
  obtain ⟨v, m₁, h₁, hrun⟩ := bind_eq_ok.mp hrun
  obtain ⟨hv, rfl⟩ := peek_eq_ok h₁
  cases v with
  | object o =>
      replace hrun := eq_ok_of_moveTo h hrun
      obtain ⟨v, m₂, h₂, hrun⟩ := bind_eq_ok.mp hrun
      obtain ⟨vs, hvs, rfl⟩ := pop_eq_ok h₂
      obtain ⟨_, _, ⟨⟩, hrun⟩ := bind_eq_ok.mp hrun
      obtain ⟨w, m₃, h₃, hrun⟩ := bind_eq_ok.mp hrun
      obtain ⟨ws, hws, rfl⟩ := pop_eq_ok h₃
      obtain rfl := push_eq_ok hrun rfl
      have hrest : (m.setValues vs).values = w :: ws := hws
      rw [values_setValues] at hrest
      subst hrest
      have hvs' : m.values = v :: w :: ws := hvs
      rw [values_goto, hvs'] at hv
      obtain rfl := Option.some.inj hv
      rw [values_setValues]
      exact .setProperty hvs'
  | _ => cases hrun

/-! ### Calls -/

theorem effect_of_invoke {n : Nat} (hrun : (Instr.invoke name n).exec q (m.goto p) = .ok u m') :
    Effect f q (.invoke name n) m m' := by
  replace hrun := eq_ok_of_moveTo h hrun
  obtain ⟨v, m₂, h₂, hrun⟩ := bind_eq_ok.mp hrun
  obtain ⟨hv, rfl⟩ := peek_eq_ok h₂
  obtain ⟨args, rest, hvs, rfl⟩ := values_of_getElem? hv
  cases v with
  | object o =>
      obtain ⟨_, _, ⟨⟩, hrun⟩ := bind_eq_ok.mp hrun
      simp only [store_goto] at hrun
      cases hfield : m.store.field? o name with
      | some v =>
          rw [hfield] at hrun
          obtain ⟨slot, m₂, hslot, hrun⟩ := bind_eq_ok.mp hrun
          obtain ⟨-, rfl, rfl⟩ := slotBelow_eq_ok hslot
          rw [(slot_callee hvs).2] at hrun
          obtain ⟨_, m₃, hwrite, hrun⟩ := bind_eq_ok.mp hrun
          obtain rfl := write_callee hvs hwrite
          exact .invokeField hvs rfl hfield (calling_of_ok (values_setValues _ _) hrun)
      | none =>
          rw [hfield] at hrun
          exact .invokeMethod hvs rfl hfield (invoking_of_ok hvs hrun)
  | _ => cases hrun

theorem effect_of_superInvoke {n : Nat} (hrun : (Instr.superInvoke name n).exec q (m.goto p) = .ok u m') :
    Effect f q (.superInvoke name n) m m' := by
  replace hrun := eq_ok_of_moveTo h hrun
  obtain ⟨c, m₂, h₂, hrun⟩ := bind_eq_ok.mp hrun
  obtain ⟨vs, hvs, rfl⟩ := popClass_eq_ok h₂
  obtain ⟨args, r, rest, hrest, rfl⟩ := values_of_invokeFrom hrun
  rw [values_setValues] at hrest
  subst hrest
  exact .superInvoke hvs rfl (invoking_of_ok (values_setValues _ _) hrun)

theorem effect_of_closeUpvalue (hrun : Instr.closeUpvalue.exec q (m.goto p) = .ok u m') :
    Effect f q .closeUpvalue m m' := by
  replace hrun := eq_ok_of_moveTo h hrun
  obtain ⟨slot, m₂, hslot, hrun⟩ := bind_eq_ok.mp hrun
  obtain ⟨-, rfl, rfl⟩ := slotBelow_eq_ok hslot
  obtain ⟨_, m₃, hclose, hrun⟩ := bind_eq_ok.mp hrun
  obtain ⟨hcells, rfl⟩ := closeFrom_eq_ok hclose rfl
  obtain ⟨v, m₄, hpop, hrun⟩ := bind_eq_ok.mp hrun
  obtain ⟨vs, hvs, rfl⟩ := pop_eq_ok hpop
  cases hrun
  have hvs' : m.values = v :: vs := hvs
  have hlen : (m.goto q).values.length - 1 - 0 = vs.length := by
    rw [values_goto, hvs', List.length_cons]
    omega
  rw [hlen] at hcells ⊢
  exact .closeUpvalue hvs' hcells

theorem effect_of_ret (hrun : Instr.ret.exec q (m.goto p) = .ok u m') :
    Effect f q .ret m m' := by
  replace hrun := eq_ok_of_moveTo h hrun
  obtain ⟨v, m₂, h₂, hrun⟩ := bind_eq_ok.mp hrun
  obtain ⟨vs, hvs, rfl⟩ := pop_eq_ok h₂
  obtain ⟨_, _, ⟨⟩, hrun⟩ := bind_eq_ok.mp hrun
  simp only [frames_setValues, frames_goto m q h] at hrun
  obtain ⟨_, _, ⟨⟩, hrun⟩ := bind_eq_ok.mp hrun
  obtain ⟨_, m₃, hclose, hrun⟩ := bind_eq_ok.mp hrun
  obtain ⟨hcells, rfl⟩ := closeFrom_eq_ok hclose (values_setValues m vs)
  obtain ⟨_, m₄, htruncate, hrun⟩ := bind_eq_ok.mp hrun
  obtain rfl := truncate_eq_ok htruncate (values_setValues m vs)
  cases fs with
  | nil =>
      cases hrun
      exact .finish h hvs hcells
  | cons g fs =>
      obtain rfl := push_eq_ok hrun (values_setValues _ _)
      exact .ret h hvs hcells

/-! ### Classes -/

theorem effect_of_inherit (hrun : Instr.inherit.exec q (m.goto p) = .ok u m') :
    Effect f q .inherit m m' := by
  replace hrun := eq_ok_of_moveTo h hrun
  obtain ⟨v, m₂, h₂, hrun⟩ := bind_eq_ok.mp hrun
  obtain ⟨hv, rfl⟩ := peek_eq_ok h₂
  cases v with
  | cls parent =>
      obtain ⟨child, m₃, h₃, hrun⟩ := bind_eq_ok.mp hrun
      obtain ⟨vs, hvs, rfl⟩ := popClass_eq_ok h₃
      cases hrun
      rw [hvs] at hv
      obtain ⟨vs, rfl⟩ : ∃ ws, vs = .cls parent :: ws := by
        cases vs with
        | nil => cases hv
        | cons w ws => exact ⟨ws, by rw [Option.some.inj hv]⟩
      exact .inherit hvs
  | _ => cases hrun

theorem effect_of_method (hrun : (Instr.method name).exec q (m.goto p) = .ok u m') :
    Effect f q (.method name) m m' := by
  replace hrun := eq_ok_of_moveTo h hrun
  obtain ⟨v, m₂, h₂, hrun⟩ := bind_eq_ok.mp hrun
  obtain ⟨vs, hvs, rfl⟩ := pop_eq_ok h₂
  cases v with
  | closure g =>
      obtain ⟨v, m₃, h₃, hrun⟩ := bind_eq_ok.mp hrun
      obtain ⟨hv, rfl⟩ := peek_eq_ok h₃
      obtain ⟨ws, hws⟩ := values_of_top hv
      rw [values_setValues] at hws
      subst hws
      cases v with
      | cls c =>
          cases hrun
          exact .method hvs
      | _ => cases hrun
  | _ => cases hrun

/-! ### Any instruction -/

theorem effect_of_exec {ins : Instr} (hop : ∀ op, ins = .operator op → op.IsOperator)
    (hq : ∀ g cs, ins = .closure g cs → 2 * cs.length ≤ q)
    (hrun : ins.exec q (m.goto p) = .ok u m') : Effect f q ins m m' := by
  cases ins with
  | push v =>
      replace hrun := eq_ok_of_moveTo h hrun
      obtain rfl := push_eq_ok hrun rfl
      exact .push
  | pop =>
      replace hrun := eq_ok_of_moveTo h hrun
      obtain ⟨v, m₂, h₂, hrun⟩ := bind_eq_ok.mp hrun
      obtain ⟨vs, hvs, rfl⟩ := pop_eq_ok h₂
      cases hrun
      exact .pop hvs
  | getLocal n => exact effect_of_getLocal h hrun
  | setLocal n => exact effect_of_setLocal h hrun
  | getGlobal name => exact effect_of_getGlobal h hrun
  | defineGlobal name =>
      replace hrun := eq_ok_of_moveTo h hrun
      obtain ⟨v, m₂, h₂, hrun⟩ := bind_eq_ok.mp hrun
      obtain ⟨vs, hvs, rfl⟩ := pop_eq_ok h₂
      cases hrun
      exact .defineGlobal hvs
  | setGlobal name => exact effect_of_setGlobal h hrun
  | getUpvalue i => exact effect_of_getUpvalue h hrun
  | setUpvalue i => exact effect_of_setUpvalue h hrun
  | getProperty name => exact effect_of_getProperty h hrun
  | setProperty name => exact effect_of_setProperty h hrun
  | getSuper name =>
      replace hrun := eq_ok_of_moveTo h hrun
      obtain ⟨c, m₂, h₂, hrun⟩ := bind_eq_ok.mp hrun
      obtain ⟨vs, hvs, rfl⟩ := popClass_eq_ok h₂
      obtain ⟨g, r, vs', hg, hvs', rfl⟩ := bindMethod_eq_ok hrun
      rw [values_setValues] at hvs'
      subst hvs'
      exact .getSuper hvs hg
  | operator op =>
      replace hrun := eq_ok_of_moveTo h hrun
      obtain ⟨top, rest, results, console, hvs, hoperate, rfl⟩ := operate_of_ok (hop op rfl) hrun
      exact .operator hvs hoperate
  | jump target =>
      obtain rfl := moveTo_eq_ok h hrun
      exact .jump
  | loop target =>
      obtain rfl := moveTo_eq_ok h hrun
      exact .loop
  | jumpIfFalse target =>
      replace hrun := eq_ok_of_moveTo h hrun
      obtain ⟨v, m₂, h₂, hrun⟩ := bind_eq_ok.mp hrun
      obtain ⟨hv, rfl⟩ := peek_eq_ok h₂
      obtain ⟨vs, hvs⟩ := values_of_top hv
      rw [Machine.ite_apply] at hrun
      split at hrun
      · obtain rfl := moveTo_eq_ok h hrun
        exact .branch hvs (by assumption)
      · cases hrun
        exact .stay hvs (Bool.not_eq_true _ ▸ by assumption)
  | call n =>
      replace hrun := eq_ok_of_moveTo h hrun
      obtain ⟨v, m₂, h₂, hrun⟩ := bind_eq_ok.mp hrun
      obtain ⟨hv, rfl⟩ := peek_eq_ok h₂
      obtain ⟨args, rest, hvs, rfl⟩ := values_of_getElem? hv
      exact .call hvs rfl (calling_of_ok hvs hrun)
  | invoke name n => exact effect_of_invoke h hrun
  | superInvoke name n => exact effect_of_superInvoke h hrun
  | closure g captures =>
      replace hrun := eq_ok_of_moveTo h hrun
      obtain ⟨cells, m₂, h₂, hrun⟩ := bind_eq_ok.mp hrun
      obtain ⟨new, m₁, rfl, hcaptures, rfl⟩ := captures_of_ok h h₂
      obtain ⟨c, m₃, ⟨⟩, hrun⟩ := bind_eq_ok.mp hrun
      obtain rfl := push_eq_ok hrun hcaptures.values
      rw [Nat.sub_add_cancel (hq g captures rfl), show #[] ++ new.toArray = new.toArray by simp]
      exact Effect.closure hcaptures
  | closeUpvalue => exact effect_of_closeUpvalue h hrun
  | ret => exact effect_of_ret h hrun
  | makeClass name =>
      replace hrun := eq_ok_of_moveTo h hrun
      obtain ⟨c, m₂, ⟨⟩, hrun⟩ := bind_eq_ok.mp hrun
      obtain rfl := push_eq_ok hrun rfl
      exact .makeClass
  | inherit => exact effect_of_inherit h hrun
  | method name => exact effect_of_method h hrun

end Exec

/-- A step that succeeds has the effect of the instruction at the instruction pointer. -/
theorem effect_of_step {ins : Instr} (h : m.frames = f :: fs)
    (hi : (m.store.chunk f.closure.function).instr? f.ip = some (ins, q))
    (hrun : step m = .ok u m') : Effect f q ins m m' := by
  rw [step_eq_exec h hi] at hrun
  refine effect_of_exec h ?_ ?_ hrun
  · rintro op rfl
    exact Chunk.isOperator_of_instr? hi
  · rintro g cs rfl
    exact Chunk.le_of_instr?_closure hi

end Steps

/-! ## What stays -/

section Stays

variable {f : Frame} {q : Nat} {ins : Instr} {m m' : Machine}

theorem Opcode.length_of_operate {op : Opcode} {top results : List Value} {c c' : Console}
    (h : op.operate top c = some (results, c')) : top.length = op.takes := by
  unfold Opcode.operate at h
  split at h <;> first | rfl | cases h

theorem Machine.cells_captured {slot c : Nat} {cell : Cell} (h : m.store.cells[c]? = some cell) :
    (m.captured slot).2.store.cells[c]? = some cell := by
  rw [captured]
  split
  · exact h
  · rw [Array.getElem?_push_lt (Array.getElem?_eq_some_iff.mp h).1]
    exact (Array.getElem?_eq_getElem _).symm.trans h

theorem Machine.openCells_captured {slot : Nat} {x : Nat × Nat} (h : x ∈ m.openCells) :
    x ∈ (m.captured slot).2.openCells := by
  rw [captured]
  split
  · exact h
  · exact mem_insertCell.mpr (.inr h)

theorem Machine.Captures.cells_stay {cs : List Capture} {cells : List Nat}
    (h : Captures f cs m cells m') {c : Nat} {cell : Cell}
    (hc : m.store.cells[c]? = some cell) : m'.store.cells[c]? = some cell := by
  induction h with
  | nil => exact hc
  | «local» _ ih => exact ih (cells_captured hc)
  | outer _ _ ih => exact ih hc

theorem Machine.Captures.openCells_stay {cs : List Capture} {cells : List Nat}
    (h : Captures f cs m cells m') {x : Nat × Nat} (hx : x ∈ m.openCells) : x ∈ m'.openCells := by
  induction h with
  | nil => exact hx
  | «local» _ ih => exact ih (openCells_captured hx)
  | outer _ _ ih => exact ih hx

/-- A machine whose stack has other values on top and that has at least the captured variables. -/
structure Machine.Replaced (m m' : Machine) (count : Nat) : Prop where
  values : ∃ top rest top', m.values = top ++ rest ∧ top.length = count ∧ m'.values = top' ++ rest
  openCells : ∀ x ∈ m.openCells, x ∈ m'.openCells
  cells : ∀ (c : Nat) (cell : Cell), m.store.cells[c]? = some cell → m'.store.cells[c]? = some cell

namespace Machine.Calling

variable {args rest : List Value} {v : Value}

theorem values_eq (h : Calling m args rest v m') (hvs : m.values = args ++ v :: rest) :
    ∃ top, m'.values = top ++ rest := by
  cases h with
  | @closure c => exact ⟨args ++ [Value.closure c], by simp [hvs]⟩
  | @bound id receiver c => exact ⟨args ++ [receiver], by simp⟩
  | @construct c g => exact ⟨args ++ [Value.object (m.nextObject c)], by simp⟩
  | @create c => exact ⟨[.object (m.nextObject c)], values_setValues _ _⟩
  | native => exact ⟨[_], values_setValues _ _⟩

theorem openCells_eq (h : Calling m args rest v m') : m'.openCells = m.openCells := by
  cases h <;> rfl

theorem cells_eq (h : Calling m args rest v m') : m'.store.cells = m.store.cells := by
  cases h <;> rfl

end Machine.Calling

/-- Both kinds of calls leave what lies below them. -/
theorem Machine.Invoking.eq_entered {args rest : List Value} {c : Class} {name : String}
    (h : Invoking m args rest c name m') : ∃ g, m' = m.entered g rest.length := by
  cases h
  exact ⟨_, rfl⟩


theorem Machine.Replaced.of_eq (top rest top' : List Value) (hvs : m.values = top ++ rest)
    (hvs' : m'.values = top' ++ rest) (hopen : m'.openCells = m.openCells)
    (hcells : m'.store.cells = m.store.cells) : m.Replaced m' top.length where
  values := ⟨top, rest, top', hvs, rfl, hvs'⟩
  openCells x hx := by rwa [hopen]
  cells c cell hc := by rwa [hcells]

/-- A call replaces the callee and its arguments. -/
theorem Machine.Calling.replaced {top args rest : List Value} {v : Value} {m₁ : Machine}
    (h : Calling m₁ args rest v m') (hvs : m.values = top ++ rest)
    (hvs₁ : m₁.values = args ++ v :: rest) (hopen : m₁.openCells = m.openCells)
    (hcells : m₁.store.cells = m.store.cells) : m.Replaced m' top.length :=
  have ⟨top', htop'⟩ := h.values_eq hvs₁
  .of_eq top rest top' hvs htop' (h.openCells_eq.trans hopen) (h.cells_eq.trans hcells)

/-- Instructions that neither assign nor close replace values at the top of the stack. -/
theorem Effect.replaced (h : Effect f q ins m m') (hassign : ¬ ins.Assigns)
    (hclose : ¬ ins.Closes) : m.Replaced m' ins.replaces := by
  cases h with
  | push | getLocal _ | getGlobal _ | getUpvalue _ _ | makeClass =>
      exact .of_eq [] m.values [_] rfl (values_setValues _ _) rfl rfl
  | pop hvs => exact .of_eq [_] _ [] hvs (values_setValues _ _) rfl rfl
  | defineGlobal hvs => exact .of_eq [_] _ [] hvs (values_setValues (m.goto q) _) rfl rfl
  | setGlobal _ _ | jump | branch _ _ | stay _ _ | loop =>
      exact .of_eq [] m.values [] rfl rfl rfl rfl
  | getField hvs _ | getMethod hvs _ _ =>
      exact .of_eq [_] _ [_] hvs (values_setValues _ _) rfl rfl
  | inherit hvs | method hvs =>
      exact .of_eq [_] _ [] hvs (values_setValues _ _) rfl rfl
  | setProperty hvs | getSuper hvs _ =>
      exact .of_eq [_, _] _ [_] hvs (values_setValues _ _) rfl rfl
  | operator hvs hop =>
      rw [Instr.replaces, ← Opcode.length_of_operate hop]
      exact .of_eq _ _ _ hvs (values_setValues _ _) rfl rfl
  | @call n args callee rest _ _ hvs hlen hcall =>
      have htop : (args ++ [callee]).length = (Instr.call n).replaces := by simp [Instr.replaces, hlen]
      rw [← htop]
      exact hcall.replaced (by simpa using hvs) hvs rfl rfl
  | @invokeField name n args o v rest _ _ hvs hlen _ hcall =>
      have htop : (args ++ [Value.object o]).length = (Instr.invoke name n).replaces := by
        simp [Instr.replaces, hlen]
      rw [← htop]
      exact hcall.replaced (by simpa using hvs) (values_setValues _ _) rfl rfl
  | @invokeMethod name n args o rest _ _ hvs hlen _ hcall =>
      have htop : (args ++ [Value.object o]).length = (Instr.invoke name n).replaces := by
        simp [Instr.replaces, hlen]
      obtain ⟨g, rfl⟩ := hcall.eq_entered
      rw [← htop]
      exact .of_eq _ rest (args ++ [Value.object o]) (by simpa using hvs) (by simpa using hvs) rfl rfl
  | @superInvoke name n c args r rest _ _ hvs hlen hcall =>
      have htop : (Value.cls c :: (args ++ [r])).length = (Instr.superInvoke name n).replaces := by
        simp [Instr.replaces, hlen]
      obtain ⟨g, rfl⟩ := hcall.eq_entered
      rw [← htop]
      exact .of_eq _ rest (args ++ [r]) (by simpa using hvs) (by simp) rfl rfl
  | @closure g cs cells _ m₁ hcaptures =>
      exact {
        values := ⟨[], m.values, [_], rfl, rfl, values_setValues _ _⟩
        openCells := fun x hx => hcaptures.openCells_stay hx
        cells := fun c cell hc => hcaptures.cells_stay hc }
  | setLocal | setClosed | setOpen => exact absurd trivial hassign
  | closeUpvalue | finish | ret => exact absurd trivial hclose

end Stays

end LoxMachine
