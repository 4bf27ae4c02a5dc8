import LoxMachine.Machine.State

/-!
# The instructions

`step` executes the instruction at the instruction pointer of the innermost frame. Operands are read
as an instruction comes to need them, so a check that comes before an operand fails before the
operand is missed. The run is over when the last frame has returned.
-/

namespace LoxMachine.Machine

/-! ## Arithmetic -/

/-- Replaces two numbers on the stack by what `f` makes of them. -/
def binary (f : Number → Number → Value) : Action Unit := do
  let b ← pop
  let a ← pop
  match a, b with
  | .number a, .number b => push (f a b)
  | _, _ => fail .operandsMustBeNumbers

/-- Adds numbers and joins strings. -/
def add : Action Unit := do
  let a ← peek 1
  let b ← peek 0
  match a, b with
  | .number _, .number _ => binary fun a b => .number (a.add b)
  | .string a, .string b =>
    let _ ← pop
    let _ ← pop
    push (.string (a ++ b))
  | _, _ => fail .operandsMustBeNumbers

def negate : Action Unit := do
  match ← pop with
  | .number n => push (.number n.neg)
  | _ => fail .operandMustBeNumber

/-! ## Calls -/

/-- Enters a closure whose arguments are on the stack. -/
def call (c : Closure) (count : Nat) : Action Unit := do
  if count ≠ c.function.arity then fail (.arityMismatch c.function.arity count)
  let base ← slotBelow count
  if (← get).frames.length < maxFrames then
    modify fun m => { m with frames := ⟨c, 0, base⟩ :: m.frames }
  else fail .stackOverflow

/-- The method of a new object that its construction runs. -/
def initName : String := "init"

/-- Puts a new object in place of its class and initializes it. -/
def construct (c : Class) (slot count : Nat) : Action Unit := do
  let object ← make (·.newObject c)
  writeSlot slot (.object object)
  match (← get).store.method? c initName with
  | some method => call method count
  | none => if count ≠ 0 then fail (.arityMismatch 0 count)

/-- Puts the answer of a function of the host in place of the call. -/
def callNative (n : Native) (slot : Nat) : Action Unit := do
  let m ← get
  let result := m.store.apply n m.time (m.stack.extract (slot + 1)).toList
  truncate slot
  push result

def callValue (callee : Value) (count : Nat) : Action Unit := do
  let slot ← slotBelow count
  match callee with
  | .closure c => call c count
  | .bound _ receiver method =>
    writeSlot slot receiver
    call method count
  | .cls c => construct c slot count
  | .native n => callNative n slot
  | _ => fail .notCallable

/-! ## Methods -/

def method (c : Class) (name : String) : Action Closure := do
  match (← get).store.method? c name with
  | some method => return method
  | none => fail (.undefinedProperty name)

/-- Replaces the receiver on top of the stack by its method of that name. -/
def bindMethod (c : Class) (name : String) : Action Unit := do
  let method ← method c name
  let receiver ← pop
  push (← make (·.newBound receiver method))

def invokeFrom (c : Class) (name : String) (count : Nat) : Action Unit := do
  call (← method c name) count

/-- Calls the field or else the method of that name. -/
def invoke (name : String) (count : Nat) : Action Unit := do
  match ← peek count with
  | .object o =>
    match (← get).store.field? o name with
    | some v =>
      writeSlot (← slotBelow count) v
      callValue v count
    | none => invokeFrom o.cls name count
  | _ => fail .onlyInstancesHaveMethods

/-! ## Variables and properties -/

def getGlobal (name : String) : Action Unit := do
  match (← get).globals[name]? with
  | some v => push v
  | none => fail (.undefinedVariable name)

def defineGlobal (name : String) : Action Unit := do
  let v ← pop
  modify fun m => { m with globals := m.globals.insert name v }

def setGlobal (name : String) : Action Unit := do
  let v ← peek 0
  if (← get).globals.contains name then
    modify fun m => { m with globals := m.globals.insert name v }
  else fail (.undefinedVariable name)

def getUpvalue : Action Unit := do
  let cell ← readCell
  match (← get).store.cells[cell]? with
  | some (.closed v) => push v
  | some (.inSlot slot) => push (← readSlot slot)
  | none => violate (.invalidUpvalue cell)

def setUpvalue : Action Unit := do
  let cell ← readCell
  let v ← peek 0
  match (← get).store.cells[cell]? with
  | some (.closed _) => changeStore (·.setCell cell v)
  | some (.inSlot slot) => writeSlot slot v
  | none => violate (.invalidUpvalue cell)

def getProperty : Action Unit := do
  match ← peek 0 with
  | .object o =>
    let name ← readName
    match (← get).store.field? o name with
    | some v =>
      let _ ← pop
      push v
    | none => bindMethod o.cls name
  | _ => fail .onlyInstancesHaveProperties

def setProperty : Action Unit := do
  match ← peek 1 with
  | .object o =>
    let name ← readName
    let v ← pop
    changeStore (·.setField o name v)
    let _ ← pop
    push v
  | _ => fail .onlyInstancesHaveFields

/-! ## Closures and classes -/

/-- The cells of the variables that a new closure captures, read from its operands. -/
def readCaptures : Nat → Array Nat → Action (Array Nat)
  | 0, cells => pure cells
  | n + 1, cells => do
    let source ← readByte
    let index := (← readByte).toNat
    let f ← frame
    let cell ←
      if source = 1 then capture (f.base + index)
      else orViolate f.closure.cells[index]? (.invalidUpvalue index)
    readCaptures n (cells.push cell)

def makeClosure : Action Unit := do
  match ← readConstant with
  | .function f =>
    let cells ← readCaptures f.captures #[]
    push (.closure (← make (·.newClosure f cells)))
  | _ => violate .invalidTypes

def closeUpvalue : Action Unit := do
  let top ← slotBelow 0
  closeFrom top
  let _ ← pop

/-- Leaves the innermost call; its result takes the place of the callee, unless the run is over. -/
def leave : Action Unit := do
  let result ← pop
  match (← get).frames with
  | [] => violate .missingFrame
  | f :: frames =>
    modify fun m => { m with frames }
    closeFrom f.base
    truncate f.base
    if frames ≠ [] then push result

def inherit : Action Unit := do
  match ← peek 1 with
  | .cls parent =>
    let child ← popClass
    changeStore (·.inherit parent child)
  | _ => fail .superclassMustBeClass

def defineMethod : Action Unit := do
  let name ← readName
  match ← pop with
  | .closure c =>
    match ← peek 0 with
    | .cls cls => changeStore (·.setMethod cls name c)
    | _ => violate .invalidTypes
  | _ => violate .invalidTypes

/-! ## Jumps -/

def jump : Action Unit := do
  let distance ← readDistance
  moveTo ((← frame).ip + distance)

def jumpIfFalse : Action Unit := do
  let distance ← readDistance
  if (← peek 0).isFalsey then moveTo ((← frame).ip + distance)

def loop : Action Unit := do
  let distance ← readDistance
  let ip := (← frame).ip
  if distance ≤ ip then moveTo (ip - distance) else violate (.invalidInstructionPointer ip)

/-! ## One instruction -/

def printTop : Action Unit := do
  let v ← pop
  modify fun m => { m with console := m.console.printLine v.toString }

def assertTop : Action Unit := do
  match ← pop with
  | .boolean true => return
  | .boolean false => fail .assertionFailed
  | _ => fail .assertionNotBoolean

/-- Executes an instruction whose operation has been read. -/
def execute : Opcode → Action Unit
  | .constant => do push (← readConstant)
  | .litNil => push .nil
  | .litTrue => push (.boolean true)
  | .litFalse => push (.boolean false)
  | .pop => do let _ ← pop
  | .getLocal => do push (← readSlot (← readLocal))
  | .setLocal => do
    let slot ← readLocal
    writeSlot slot (← peek 0)
  | .getGlobal => do getGlobal (← readName)
  | .defineGlobal => do defineGlobal (← readName)
  | .setGlobal => do setGlobal (← readName)
  | .getUpvalue => getUpvalue
  | .setUpvalue => setUpvalue
  | .getProperty => getProperty
  | .setProperty => setProperty
  | .getSuper => do
    let name ← readName
    bindMethod (← popClass) name
  | .equal => do
    let b ← pop
    let a ← pop
    push (.boolean (a.same b))
  | .greater => binary fun a b => .boolean (b.lt a)
  | .less => binary fun a b => .boolean (a.lt b)
  | .add => add
  | .subtract => binary fun a b => .number (a.sub b)
  | .multiply => binary fun a b => .number (a.mul b)
  | .divide => binary fun a b => .number (a.div b)
  | .not => do push (.boolean (← pop).isFalsey)
  | .negate => negate
  | .print => printTop
  | .assert => assertTop
  | .jump => jump
  | .jumpIfFalse => jumpIfFalse
  | .loop => loop
  | .call => do
    let count := (← readByte).toNat
    callValue (← peek count) count
  | .invoke => do
    let name ← readName
    invoke name (← readByte).toNat
  | .superInvoke => do
    let name ← readName
    let count := (← readByte).toNat
    invokeFrom (← popClass) name count
  | .closure => makeClosure
  | .closeUpvalue => closeUpvalue
  | .ret => leave
  | .makeClass => do
    let name ← readName
    push (.cls (← make (·.newClass name)))
  | .inherit => inherit
  | .method => defineMethod

def step : Action Unit := do
  let byte ← readByte
  match Opcode.ofByte? byte with
  | some op => execute op
  | none => violate (.invalidOpcode byte)

end LoxMachine.Machine
