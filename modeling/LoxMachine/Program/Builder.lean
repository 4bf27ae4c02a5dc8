import LoxMachine.Program.Body
import LoxMachine.Program.Error

/-!
# Building a program

A program is built in one pass over the tokens of its text. The builder sees two tokens at a time:
the one last read and the current one. It holds the body that is being compiled and the bodies
around it, and collects errors. After an error it panics: it reports nothing more until it has found
a place where a statement can begin (`synchronize`).

Everything emitted belongs to the line of the token last read.
-/

namespace LoxMachine

/-- A compiled function and its code. -/
structure Routine where
  function : Function
  code : Chunk
  /-- How the function was declared. -/
  kind : BodyKind
deriving DecidableEq, Repr

structure Builder where
  previous : Token
  current : Token
  upcoming : List Token
  panicking : Bool := false
  errors : Array SourceError := #[]
  body : Body
  /-- The bodies around it, the nearest first. -/
  outer : List Body := []
  /-- The open classes, the innermost first, and whether each has a superclass. -/
  classes : List Bool := []
  /-- The global variable whose initializer is being compiled. -/
  initializing : Option String := none
  /-- The index of the first function of this program in the store it will be added to. -/
  firstIndex : Nat := 0
  /-- The functions compiled so far. -/
  finished : Array Routine := #[]
  /-- How many of them were compiled before the first error. -/
  sound : Nat := 0

abbrev Build := StateM Builder

namespace Builder

/-! ## Errors -/

def report (s : Builder) (e : SourceError) : Builder :=
  if s.panicking then s else { s with panicking := true, errors := s.errors.push e }

def errorAt (t : Token) (d : Defect) : Build Unit :=
  modify (·.report (.grammar t.line (.ofToken t) d))

/-- Reports a defect at the token last read. -/
def error (d : Defect) : Build Unit := do
  errorAt (← get).previous d

def errorAtCurrent (d : Defect) : Build Unit := do
  errorAt (← get).current d

/-! ## Tokens -/

/-- Makes the next token the current one. Text that is no token is reported and passed over. The
end token stays for ever. -/
def pull (s : Builder) : List Token → Builder
  | [] => { s with upcoming := [] }
  | t :: upcoming =>
    match t.kind with
    | .error cause => (s.report (.scan t.line cause)).pull upcoming
    | _ => { s with current := t, upcoming }

def advance : Build Unit :=
  modify fun s => { s with previous := s.current }.pull s.upcoming

def check (kind : TokenKind) : Build Bool := do
  return (← get).current.kind = kind

/-- Reads the current token if it is of that kind. -/
def accept (kind : TokenKind) : Build Bool := do
  if ← check kind then
    advance
    return true
  else return false

/-- Reads the current token, which has to be of the kind expected. -/
def expect (e : Expectation) : Build Unit := do
  unless ← accept e.kind do errorAtCurrent (.expect e)

/-- The text of the token last read. -/
def lastText : Build String := do
  return (← get).previous.text

/-- Repeats `body` as long as `condition` holds, at most `bound` times. -/
def repeatWhile (condition : Build Bool) (body : Build Unit) : (bound : Nat) → Build Unit
  | 0 => pure ()
  | bound + 1 => do
    if ← condition then
      body
      repeatWhile condition body bound

/-- Whether a token can only stand at the start of a statement or declaration. -/
def startsStatement : TokenKind → Bool
  | .kwClass | .kwFun | .kwVar | .kwFor | .kwIf | .kwWhile | .kwPrint | .kwAssert
  | .kwReturn => true
  | _ => false

/-- Whether a statement may begin here, as far as one can tell after an error. -/
def atBoundary (s : Builder) : Bool :=
  s.current.kind = .eof || s.previous.kind = .semicolon || startsStatement s.current.kind

/-- Ends a panic and reads on to where a statement may begin. -/
def synchronize (bound : Nat) : Build Unit := do
  modify fun s => { s with panicking := false }
  repeatWhile (do return !(← get).atBoundary) advance bound

/-! ## Code -/

/-- Changes the body that is being compiled. -/
def onBody {α : Type} (f : Body → α × Body) : Build α :=
  modifyGet fun s =>
    let (a, body) := f s.body
    (a, { s with body })

/-- Changes the code that is being compiled, given the line of the token last read. -/
def onChunk {α : Type} (f : Nat → Chunk → α × Chunk) : Build α :=
  modifyGet fun s =>
    let (a, chunk) := f s.previous.line s.body.chunk
    (a, { s with body := { s.body with chunk } })

def emitByte (b : UInt8) : Build Unit :=
  onChunk fun line c => ((), c.write b line)

def emit (op : Opcode) : Build Unit :=
  onChunk fun line c => ((), c.writeOp op line)

/-- Emits an operation with an operand of one byte. -/
def emitWith (op : Opcode) (operand : Nat) : Build Unit := do
  emit op
  emitByte operand.toUInt8

/-- Where the next instruction will stand. -/
def here : Build Nat := do
  return (← get).body.chunk.size

def emitJump (op : Opcode) : Build Nat :=
  onChunk fun line c => c.writeJump op line

def patchJump (offset : Nat) : Build Unit := do
  unless ← onChunk fun _ c => c.patchJump offset do error .jumpTooLarge

def emitLoop (start : Nat) : Build Unit := do
  unless ← onChunk fun line c => c.writeLoop start line do error .loopTooLarge

/-- A script or function answers nil if it says nothing else, an initializer its receiver. -/
def emitReturn : Build Unit := do
  if (← get).body.kind = .initializer then emitWith .getLocal 0 else emit .litNil
  emit .ret

/-- The index of a constant. -/
def makeConstant (v : Value) : Build Nat := do
  match ← onChunk fun _ c => c.addConstant v with
  | some index => return index
  | none =>
    error .tooManyConstants
    return 0

def emitConstant (v : Value) : Build Unit := do
  emitWith .constant (← makeConstant v)

def nameConstant (name : String) : Build Nat :=
  makeConstant (.string name)

/-! ## Scopes and variables -/

def beginScope : Build Unit :=
  onBody fun b => ((), { b with depth := b.depth + 1 })

/-- Takes the variables of the innermost scope off the stack. -/
def endScope : Build Unit := do
  let gone ← onBody Body.leaveScope
  gone.forM fun l => emit (if l.captured then .closeUpvalue else .pop)

def inGlobalScope : Build Bool := do
  return (← get).body.depth = 0

def addLocal (name : String) : Build Unit := do
  let full ← onBody fun b =>
    match b.addLocal? name with
    | some b => (false, b)
    | none => (true, b)
  if full then error .tooManyLocals

/-- Declares the name last read, unless it names a global. -/
def declareVariable : Build Unit := do
  unless ← inGlobalScope do
    let name ← lastText
    if (← get).body.isDeclared name then error .duplicateLocal
    addLocal name

/-- Reads the name of a variable and declares it. Answers the constant with its name if it is
global. -/
def readVariable (e : Expectation) : Build Nat := do
  expect e
  declareVariable
  if ← inGlobalScope then nameConstant (← lastText) else return 0

def markInitialized : Build Unit := do
  unless ← inGlobalScope do onBody fun b => ((), b.markInitialized)

/-- Lets the value on top of the stack be the variable last declared. -/
def defineVariable (global : Nat) : Build Unit := do
  if ← inGlobalScope then emitWith .defineGlobal global else markInitialized

/-- What a name stands for. -/
inductive Variable where
  | local (slot : Nat)
  | captured (index : Nat)
  /-- A global, by the constant with its name. -/
  | global (name : Nat)
deriving DecidableEq, Repr

def Variable.getOp : Variable → Opcode
  | .local _ => .getLocal
  | .captured _ => .getUpvalue
  | .global _ => .getGlobal

def Variable.setOp : Variable → Opcode
  | .local _ => .setLocal
  | .captured _ => .setUpvalue
  | .global _ => .setGlobal

def Variable.operand : Variable → Nat
  | .local n | .captured n | .global n => n

/-- Looks a name up in the functions around the body. -/
def resolveOutside (name : String) : Build Body.Resolution :=
  modifyGet fun s =>
    let (r, body, outer) := Body.resolve name s.body s.outer
    (r, { s with body, outer })

/-- Whether the value of a variable of that name is what is being computed. -/
def isInitializing (s : Builder) (name : String) : Bool :=
  s.body.hasUninitialized name || s.initializing == some name

def resolve (name : String) : Build Variable := do
  match Body.slot? name (← get).body.locals with
  | some slot => return .local slot
  | none =>
    match ← resolveOutside name with
    | .found index => return .captured index
    | .absent =>
      if (← get).isInitializing name then error .ownInitializer
      return .global (← nameConstant name)
    | .full =>
      error .tooManyUpvalues
      return .captured 0

/-- Emits a reading of a variable. -/
def readNamed (name : String) : Build Unit := do
  let v ← resolve name
  emitWith v.getOp v.operand

/-! ## Functions -/

/-- Starts a body inside the one being compiled. -/
def openBody (kind : BodyKind) (name : String) : Build Unit :=
  modify fun s => { s with body := Body.new kind name, outer := s.body :: s.outer }

/-- The compiled form of a body. -/
def routine (s : Builder) : Routine :=
  { function :=
      { index := s.firstIndex + s.finished.size
        name := s.body.name
        arity := s.body.arity
        captures := s.body.captures.size }
    code := s.body.chunk
    kind := s.body.kind }

/-- Finishes the body being compiled and goes on with the one around it. -/
def closeBody : Build (Function × Array Capture) :=
  modifyGet fun s =>
    match s.outer with
    | [] => ((s.routine.function, s.body.captures), s)
    | body :: outer =>
      let r := s.routine
      ((r.function, s.body.captures),
        { s with
          body, outer
          finished := s.finished.push r
          sound := if s.errors.isEmpty then s.sound + 1 else s.sound })

end Builder

end LoxMachine
