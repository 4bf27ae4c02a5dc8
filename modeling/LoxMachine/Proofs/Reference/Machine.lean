import LoxMachine.Proofs.Code.Instruction
import LoxMachine.Proofs.Typing.Slots
import LoxMachine.Session

/-!
# A machine of cells

A machine for the same code that knows nothing of open and closed variables. Every position of the
stack is a cell of the heap, a new one for each value that is pushed. A local variable is read and
assigned in the cell of its position, a closure that captures it takes that very cell, and what
leaves the stack is just dropped: no list tells which variables are shared, and no value moves when
a scope or a call ends.

Main definitions: `CellMachine`, `CellMachine.step` and `CellMachine.runSource`, what becomes of a
text on such a machine.
-/

namespace LoxMachine

open Std (HashMap)

structure CellMachine where
  /-- All but the captured variables, which are on the heap. -/
  store : Store := {}
  globals : HashMap String Value := ∅
  /-- What is in the cells made so far. -/
  heap : Array Value := #[]
  /-- The cells of the positions on the stack, the top first. -/
  stack : List Nat := []
  /-- The innermost call first. -/
  frames : List Frame := []
  console : Console := {}
  time : Number := ⟨0⟩

namespace CellMachine

abbrev Action := EStateM Fault CellMachine

/-! ## Faults -/

def fail {α : Type} (e : RuntimeError) : Action α :=
  throw (.runtime e)

def violate {α : Type} (v : Violation) : Action α :=
  throw (.violation v)

def orViolate {α : Type} (x : Option α) (v : Violation) : Action α :=
  match x with
  | some a => pure a
  | none => violate v

/-! ## Cells -/

/-- A cell that nothing else stands for yet. -/
def newCell (v : Value) : Action Nat :=
  modifyGet fun s => (s.heap.size, { s with heap := s.heap.push v })

def read (cell : Nat) : Action Value := do
  orViolate (← get).heap[cell]? (.invalidUpvalue cell)

def write (cell : Nat) (v : Value) : Action Unit :=
  modify fun s => { s with heap := s.heap.setIfInBounds cell v }

/-! ## The stack -/

def push (v : Value) : Action Unit := do
  if (← get).stack.length < Machine.maxStack then
    let cell ← newCell v
    modify fun s => { s with stack := cell :: s.stack }
  else fail .stackOverflow

def drop (count : Nat) : Action Unit :=
  modify fun s => { s with stack := s.stack.drop count }

/-- The cell of the position that lies `distance` below the top of the stack. -/
def cellBelow (distance : Nat) : Action Nat := do
  orViolate (← get).stack[distance]? .stackUnderflow

/-- The cell of a slot; slots are counted from the bottom of the stack. -/
def cellAt (slot : Nat) : Action Nat := do
  orViolate (atSlot? (← get).stack slot) .stackUnderflow

def peek (distance : Nat) : Action Value := do
  read (← cellBelow distance)

def pop : Action Value := do
  let v ← peek 0
  drop 1
  return v

def popClass : Action Class := do
  match ← pop with
  | .cls c => return c
  | _ => violate .invalidTypes

/-! ## The code and the store -/

def frame : Action Frame := do
  orViolate (← get).frames.head? .missingFrame

/-- The machine with the instruction pointer of the running frame at `ip`. -/
def goto (s : CellMachine) (ip : Nat) : CellMachine :=
  { s with frames := s.frames.modifyHead ({ · with ip }) }

def moveTo (ip : Nat) : Action Unit :=
  modify (·.goto ip)

def make {α : Type} (new : Store → α × Store) : Action α :=
  modifyGet fun s => ((new s.store).1, { s with store := (new s.store).2 })

def changeStore (change : Store → Store) : Action Unit :=
  modify fun s => { s with store := change s.store }

/-! ## Operators -/

def binary (f : Number → Number → Value) : Action Unit := do
  let b ← pop
  let a ← pop
  match a, b with
  | .number a, .number b => push (f a b)
  | _, _ => fail .operandsMustBeNumbers

def add : Action Unit := do
  let a ← peek 1
  let b ← peek 0
  match a, b with
  | .number _, .number _ => binary fun a b => .number (a.add b)
  | .string a, .string b =>
    let _ ← pop
    let _ ← pop
    push (.string (a ++ b))
  | _, _ => fail .operandsMustBeNumbers

def operate : Opcode → Action Unit
  | .equal => do
    let b ← pop
    let a ← pop
    push (.boolean (a.same b))
  | .greater => binary fun a b => .boolean (b.lt a)
  | .less => binary fun a b => .boolean (a.lt b)
  | .add => add
  | .subtract => binary fun a b => .number (a.sub b)
  | .multiply => binary fun a b => .number (a.mul b)
  | .divide => binary fun a b => .number (a.div b)
  | .not => do push (.boolean (← pop).isFalsey)
  | .negate => do
    match ← pop with
    | .number n => push (.number n.neg)
    | _ => fail .operandMustBeNumber
  | .print => do
    let v ← pop
    modify fun s => { s with console := s.console.printLine v.toString }
  | .assert => do
    match ← pop with
    | .boolean true => return
    | .boolean false => fail .assertionFailed
    | _ => fail .assertionNotBoolean
  | op => violate (.invalidOpcode op.toByte)

/-! ## Calls -/

/-- Enters a closure whose arguments are on the stack. -/
def call (c : Closure) (count : Nat) : Action Unit := do
  if count ≠ c.function.arity then fail (.arityMismatch c.function.arity count)
  let _ ← cellBelow count
  let s ← get
  if s.frames.length < Machine.maxFrames then
    set { s with frames := ⟨c, 0, s.stack.length - 1 - count⟩ :: s.frames }
  else fail .stackOverflow

/-- Puts a new object into the cell of its class and initializes it. -/
def construct (c : Class) (cell count : Nat) : Action Unit := do
  let object ← make (·.newObject c)
  write cell (.object object)
  match (← get).store.method? c Machine.initName with
  | some method => call method count
  | none => if count ≠ 0 then fail (.arityMismatch 0 count)

def callNative (n : Native) (count : Nat) : Action Unit := do
  let s ← get
  let arguments := (s.stack.take count).reverse.filterMap (s.heap[·]?)
  drop (count + 1)
  push (s.store.apply n s.time arguments)

def callValue (callee : Value) (count : Nat) : Action Unit := do
  let cell ← cellBelow count
  match callee with
  | .closure c => call c count
  | .bound _ receiver method =>
    write cell receiver
    call method count
  | .cls c => construct c cell count
  | .native n => callNative n count
  | _ => fail .notCallable

def method (c : Class) (name : String) : Action Closure := do
  match (← get).store.method? c name with
  | some method => return method
  | none => fail (.undefinedProperty name)

def bindMethod (c : Class) (name : String) : Action Unit := do
  let method ← method c name
  let receiver ← pop
  push (← make (·.newBound receiver method))

def invokeFrom (c : Class) (name : String) (count : Nat) : Action Unit := do
  call (← method c name) count

/-- Leaves the innermost call: all its positions are dropped. -/
def leave : Action Unit := do
  let result ← pop
  match (← get).frames with
  | [] => violate .missingFrame
  | f :: frames =>
    modify fun s => { s with frames }
    drop ((← get).stack.length - f.base)
    if frames ≠ [] then push result

/-! ## One instruction -/

/-- The cell that a new closure shares: that of a position of the running call, or one that the
running closure shares itself. -/
def shared (f : Frame) (c : Capture) : Action Nat :=
  if c.fromLocal then cellAt (f.base + c.index)
  else orViolate f.closure.cells[c.index]? (.invalidUpvalue c.index)

/-- What an instruction does; `next` is the offset behind it. -/
def exec (next : Nat) : Instr → Action Unit
  | .push v => do moveTo next; push v
  | .pop => do moveTo next; let _ ← pop
  | .getLocal slot => do
    moveTo next
    push (← read (← cellAt ((← frame).base + slot)))
  | .setLocal slot => do
    moveTo next
    let f ← frame
    let v ← peek 0
    write (← cellAt (f.base + slot)) v
  | .getGlobal name => do
    moveTo next
    match (← get).globals[name]? with
    | some v => push v
    | none => fail (.undefinedVariable name)
  | .defineGlobal name => do
    moveTo next
    let v ← pop
    modify fun s => { s with globals := s.globals.insert name v }
  | .setGlobal name => do
    moveTo next
    let v ← peek 0
    if (← get).globals.contains name then
      modify fun s => { s with globals := s.globals.insert name v }
    else fail (.undefinedVariable name)
  | .getUpvalue index => do
    moveTo next
    let cell ← orViolate (← frame).closure.cells[index]? (.invalidUpvalue index)
    push (← read cell)
  | .setUpvalue index => do
    moveTo next
    let cell ← orViolate (← frame).closure.cells[index]? (.invalidUpvalue index)
    write cell (← peek 0)
  | .getProperty name => do
    match ← peek 0 with
    | .object o =>
      moveTo next
      match (← get).store.field? o name with
      | some v =>
        let _ ← pop
        push v
      | none => bindMethod o.cls name
    | _ => fail .onlyInstancesHaveProperties
  | .setProperty name => do
    match ← peek 1 with
    | .object o =>
      moveTo next
      let v ← pop
      changeStore (·.setField o name v)
      let _ ← pop
      push v
    | _ => fail .onlyInstancesHaveFields
  | .getSuper name => do moveTo next; bindMethod (← popClass) name
  | .operator op => do moveTo next; operate op
  | .jump target => moveTo target
  | .jumpIfFalse target => do
    moveTo next
    if (← peek 0).isFalsey then moveTo target
  | .loop target => moveTo target
  | .call count => do moveTo next; callValue (← peek count) count
  | .invoke name count => do
    moveTo next
    match ← peek count with
    | .object o =>
      match (← get).store.field? o name with
      | some v =>
        write (← cellBelow count) v
        callValue v count
      | none => invokeFrom o.cls name count
    | _ => fail .onlyInstancesHaveMethods
  | .superInvoke name count => do moveTo next; invokeFrom (← popClass) name count
  | .closure g captures => do
    moveTo next
    -- A function that captures itself shares the cell that it is put into.
    push .nil
    let f ← frame
    let cells ← captures.mapM (shared f)
    let c ← make (·.newClosure g cells.toArray)
    write (← cellBelow 0) (.closure c)
  | .closeUpvalue => do moveTo next; let _ ← pop
  | .ret => do moveTo next; leave
  | .makeClass name => do moveTo next; push (.cls (← make (·.newClass name)))
  | .inherit => do
    moveTo next
    match ← peek 1 with
    | .cls parent => changeStore (·.inherit parent (← popClass))
    | _ => fail .superclassMustBeClass
  | .method name => do
    moveTo next
    match ← pop with
    | .closure c =>
      match ← peek 0 with
      | .cls cls => changeStore (·.setMethod cls name c)
      | _ => violate .invalidTypes
    | _ => violate .invalidTypes

/-- Executes the instruction at the instruction pointer of the innermost frame. -/
def step : Action Unit := do
  let s ← get
  let f ← frame
  let (ins, next) ← orViolate ((s.store.chunk f.closure.function).instr? f.ip)
    (.invalidInstructionPointer f.ip)
  moveTo (f.ip + 1)
  exec next ins

/-! ## Running -/

def trace (s : CellMachine) : List TraceEntry :=
  s.frames.map fun f => ⟨Machine.Frame.line s.store f, f.closure.function.name⟩

def record (s : CellMachine) (level : LogLevel) (text : String) : CellMachine :=
  { s with console := s.console.record level text }

/-- The values on the stack, the lowest first. -/
def contents (s : CellMachine) : Array Value :=
  (s.stack.reverse.filterMap (s.heap[·]?)).toArray

def traceStep (s : CellMachine) : CellMachine :=
  match s.frames with
  | [] => s
  | f :: _ =>
    if s.console.keeps .trace then
      (s.record .trace ("Stack: " ++ Value.debugRow s.contents)).record .trace
        ((s.store.chunk f.closure.function).instructionAt f.ip)
    else s

def enter (f : Function) : Action Unit := do
  let closure ← make (·.newClosure f #[])
  push (.closure closure)
  call closure 0

def reset (s : CellMachine) : CellMachine :=
  { s with stack := [], frames := [] }

def abort (s : CellMachine) (fault : Fault) : Outcome × CellMachine :=
  (.failed ⟨fault, s.trace⟩,
    (s.record .debug ("Runtime error: " ++ fault.message)).reset)

/-- Executes at most `budget` instructions of a run that has been entered. -/
def run : Nat → CellMachine → Outcome × CellMachine
  | 0, s => (.unfinished, s)
  | budget + 1, s =>
    match step s.traceStep with
    | .error fault s => s.abort fault
    | .ok _ s => if s.frames.isEmpty then (.finished, s) else run budget s

/-- Runs a function without arguments. -/
def interpret (s : CellMachine) (budget : Nat) (f : Function) : Outcome × CellMachine :=
  match enter f s with
  | .error fault s => s.abort fault
  | .ok _ s => run budget s

/-- The machine of cells that has what a machine between runs has. -/
def of (m : Machine) : CellMachine where
  store := { m.store with cells := #[] }
  globals := m.globals
  console := m.console
  time := m.time

/-- Compiles a text for a machine and executes at most `budget` instructions of it on the machine of
cells. -/
def runSource (m : Machine) (budget : Nat) (source : String) : Ending × CellMachine :=
  match m.prepare source with
  | (.error errors, m) => (.rejected errors, of m)
  | (.ok f, m) =>
    let (outcome, s) := (of m).interpret budget f
    (.ofOutcome outcome, s)

end CellMachine

end LoxMachine
