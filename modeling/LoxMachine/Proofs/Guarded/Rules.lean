import LoxMachine.Proofs.Compile.Nesting

/-!
# Guarded rules

The rules of the builder are total: a scope that is not open can be left, a jump can be patched
behind the end of the code, and a loop or a nested rule that has used up its bound just ends. The
guarded rules are the same ones with every such step refused. They stop (`Halt`) where a step makes no
sense, and where a bound is used up, so that a guarded rule which ends has ended by itself.

What ends a panic is a parameter of the guarded rules: `synchronize`, or a recovery that says more
about what it does.
-/

namespace LoxMachine

/-- Why a guarded rule does not go on. -/
inductive Halt where
  /-- More rounds of a loop, or more rules inside each other, than the bound allows. -/
  | unfinished
  /-- A loop goes round, or a rule comes back to itself, and no token has been taken. -/
  | idle
  /-- No scope is open. -/
  | noScope
  /-- There is no function around the one that ends. -/
  | noFunctionAround
  /-- The distance of a jump would not be in the code, or not in front of its end. -/
  | jumpOutside
  /-- A loop would start behind the end of the code. -/
  | loopAhead
  /-- There is no local variable in a slot. -/
  | noLocal
  /-- A rule was given a token that it is not for. -/
  | wrongToken
  /-- Recovery would pass over a brace; these errors have been reported so far. -/
  | overBrace (errors : Array SourceError)
deriving DecidableEq, Repr

abbrev Guarded := StateT Builder (Except Halt)

/-- An action that nothing can be wrong with. -/
instance : MonadLift Build Guarded :=
  ⟨fun x s => .ok (x s)⟩

namespace Guarded

open Builder

variable {α β : Type}

def halt (h : Halt) : Guarded α :=
  fun _ => .error h

/-- An action that makes sense under a condition. -/
def when (condition : Builder → Bool) (h : Halt) (x : Build α) : Guarded α := do
  if condition (← get) then x else halt h

/-- What may only be done with fewer tokens left. -/
def below (n : Nat) (x : Guarded α) : Guarded α := do
  if (← get).left < n then x else halt .idle

/-! ## Loops -/

/-- Repeats a step until it gives nothing to go on with. -/
def rounds (step : α → Guarded (Option α)) : (bound : Nat) → α → Guarded α
  | 0, _ => halt .unfinished
  | bound + 1, a => do
    let tokens := (← get).left
    match ← step a with
    | none => return a
    | some a => below tokens (rounds step bound a)

/-- One round of a loop with a condition in front. -/
def whileStep (condition : Build Bool) (body : Guarded Unit) (_ : Unit) :
    Guarded (Option Unit) := do
  if ← condition then
    body
    return some ()
  else return none

def repeatWhile (condition : Build Bool) (body : Guarded Unit) (bound : Nat) : Guarded Unit :=
  rounds (whileStep condition body) bound ()

def isLost : Build Bool := do
  return !(← get).atBoundary

/-- Ends a panic and skips tokens up to where a statement may begin. -/
def resume (skip : Guarded Unit) (bound : Nat) : Guarded Unit := do
  (modify fun s => { s with panicking := false } : Build Unit)
  repeatWhile isLost skip bound

def synchronize : Nat → Guarded Unit :=
  resume advance

/-! ## Code and scopes -/

def patchJump (offset : Nat) : Guarded Unit :=
  when (fun s => offset + 2 ≤ s.body.chunk.size) .jumpOutside (Builder.patchJump offset)

def emitLoop (start : Nat) : Guarded Unit :=
  when (fun s => start ≤ s.body.chunk.size) .loopAhead (Builder.emitLoop start)

def endScope : Guarded Unit :=
  when (fun s => 0 < s.body.depth) .noScope Builder.endScope

def closeBody : Guarded (Function × Array Capture) :=
  when (fun s => !s.outer.isEmpty) .noFunctionAround Builder.closeBody

/-! ## Captured variables -/

/-- Marks the local in a slot as captured. -/
def markSlot? (slot : Nat) (locals : List Local) : Option (List Local) :=
  if slot < locals.length then
    some (locals.modify (locals.length - 1 - slot) ({ · with captured := true }))
  else none

/-- Resolves a name in the bodies around `b`; the slot of a captured local is looked up by its
number. -/
def resolveAround (name : String) (b : Body) :
    List Body → Except Halt (Body.Resolution × Body × List Body)
  | [] => .ok (.absent, b, [])
  | parent :: outer =>
    match Body.slot? name parent.locals with
    | some slot =>
      match markSlot? slot parent.locals with
      | none => .error .noLocal
      | some locals =>
        let (r, b) := b.link ⟨slot, true⟩
        .ok (r, b, { parent with locals } :: outer)
    | none =>
      match resolveAround name parent outer with
      | .error h => .error h
      | .ok (.found i, parent, outer) =>
        let (r, b) := b.link ⟨i, false⟩
        .ok (r, b, parent :: outer)
      | .ok (r, parent, outer) => .ok (r, b, parent :: outer)

def resolveOutside (name : String) : Guarded Body.Resolution := fun s =>
  match resolveAround name s.body s.outer with
  | .error h => .error h
  | .ok (r, body, outer) => .ok (r, { s with body, outer })

def resolve (name : String) : Guarded Variable := do
  match Body.slot? name (← get).body.locals with
  | some slot => return .local slot
  | none =>
    match ← resolveOutside name with
    | .found index => return .captured index
    | .absent =>
      if (← get).isInitializing name then error .ownInitializer
      return .global (← nameConstant name)
    | .full =>
      error .tooManyUpvalues
      return .captured 0

def readNamed (name : String) : Guarded Unit := do
  let v ← resolve name
  emitWith v.getOp v.operand

/-! ## Expressions -/

def literal : Guarded Unit := do
  match (← get).previous.kind with
  | .kwFalse => emit .litFalse
  | .kwTrue => emit .litTrue
  | .kwNil => emit .litNil
  | _ => halt .wrongToken

section Operands

variable (bound : Nat) (sub : Power → Guarded Unit)

def named (name : String) (canAssign : Bool) : Guarded Unit := do
  let v ← resolve name
  if ← (if canAssign then accept .equal else return false : Build Bool) then
    sub .assignment
    emitWith v.setOp v.operand
  else emitWith v.getOp v.operand

def grouping : Guarded Unit := do
  sub .assignment
  expect .groupClose

def unary : Guarded Unit := do
  let operator := (← get).previous.kind
  sub .unary
  match operator with
  | .minus => emit .negate
  | .bang => emit .not
  | _ => halt .wrongToken

/-- An argument behind `count` others; how many there are if there is another one to come. -/
def argument (count : Nat) : Guarded Bool := do
  sub .assignment
  if count = Expression.maxArguments then error .tooManyArguments
  accept .comma

def argumentStep (count : Nat) : Guarded (Option Nat) := do
  if ← argument sub count then return some (count + 1) else return none

/-- Arguments behind `count` others; answers how many there are with the last one. -/
def argumentsFrom (count : Nat) : Guarded Nat := do
  let before ← rounds (argumentStep sub) bound count
  return before + 1

def arguments : Guarded Nat := do
  let count ← if ← check .rightParen then pure 0 else argumentsFrom bound sub 0
  expect .argumentsClose
  return min count Expression.maxArguments

def this : Guarded Unit := do
  if (← get).classes.isEmpty then error .thisOutsideClass
  else readNamed (← lastText)

def super : Guarded Unit := do
  match (← get).classes.head? with
  | none => error .superOutsideClass
  | some hasSuperclass => unless hasSuperclass do error .superWithoutSuperclass
  expect .superDot
  expect .superclassMethodName
  let name ← nameConstant (← lastText)
  readNamed "this"
  if ← accept .leftParen then
    let count ← arguments bound sub
    readNamed "super"
    emitWith .superInvoke name
    emitByte count.toUInt8
  else
    readNamed "super"
    emitWith .getSuper name

def opening (canAssign : Bool) : TokenKind → Option (Guarded Unit)
  | .leftParen => some (grouping sub)
  | .minus | .bang => some (unary sub)
  | .identifier => some do named sub (← lastText) canAssign
  | .string => some Expression.string
  | .number => some Expression.number
  | .kwFalse | .kwTrue | .kwNil => some literal
  | .kwSuper => some (super bound sub)
  | .kwThis => some this
  | _ => none

def binary : Guarded Unit := do
  let operator := (← get).previous.kind
  sub (Power.ofKind operator).next
  match Expression.operations operator with
  | [] => halt .wrongToken
  | codes => (codes.forM emit : Build Unit)

def call : Guarded Unit := do
  let count ← arguments bound sub
  emitWith .call count

def property (canAssign : Bool) : Guarded Unit := do
  expect .propertyName
  let name ← nameConstant (← lastText)
  if ← (if canAssign then accept .equal else return false : Build Bool) then
    sub .assignment
    emitWith .setProperty name
  else if ← accept .leftParen then
    let count ← arguments bound sub
    emitWith .invoke name
    emitByte count.toUInt8
  else emitWith .getProperty name

def and : Guarded Unit := do
  let endJump ← emitJump .jumpIfFalse
  emit .pop
  sub .and
  patchJump endJump

def or : Guarded Unit := do
  let elseJump ← emitJump .jumpIfFalse
  let endJump ← emitJump .jump
  patchJump elseJump
  emit .pop
  sub .or
  patchJump endJump

def continuation (canAssign : Bool) (operator : TokenKind) : Guarded Unit :=
  match operator with
  | .leftParen => call bound sub
  | .dot => property bound sub canAssign
  | .kwAnd => and sub
  | .kwOr => or sub
  | .minus | .plus | .slash | .asterisk | .bangEqual | .equalEqual | .greater | .greaterEqual
  | .less | .lessEqual => binary sub
  | _ => pure ()

/-- Whether an operator follows that binds at least as tightly as asked for. -/
def continues (least : Power) : Build Bool := do
  return least ≤ Power.ofKind (← get).current.kind

def operator (canAssign : Bool) : Guarded Unit := do
  advance
  continuation bound sub canAssign (← get).previous.kind

def rule (least : Power) : Guarded Unit := do
  advance
  let canAssign : Bool := least ≤ .assignment
  match opening bound sub canAssign (← get).previous.kind with
  | none => error .expectExpression
  | some first =>
    first
    repeatWhile (continues least) (operator bound sub canAssign) bound
    if ← (if canAssign then accept .equal else return false : Build Bool) then
      error .invalidAssignmentTarget

end Operands

def within : (n : Nat) → Power → Guarded Unit
  | 0, _ => halt .unfinished
  | n + 1, least => do
    let tokens := (← get).left
    rule n (fun p => below tokens (within n p)) least

/-! ## Statements -/

structure Parts where
  bound : Nat
  expression : Guarded Unit
  statement : Guarded Unit
  declaration : Guarded Unit
  /-- What ends a panic. -/
  recover : Guarded Unit

section Rules

variable (parts : Parts)

def printStatement : Guarded Unit := do
  parts.expression
  expect .valueEnd
  emit .print

def assertStatement : Guarded Unit := do
  parts.expression
  expect .assertionEnd
  emit .assert

def expressionStatement : Guarded Unit := do
  parts.expression
  expect .expressionEnd
  emit .pop

def returnStatement : Guarded Unit := do
  if (← get).body.kind = .script then error .topLevelReturn
  if ← accept .semicolon then emitReturn
  else
    if (← get).body.kind = .initializer then error .initializerReturn
    parts.expression
    expect .returnEnd
    emit .ret

def block : Guarded Unit := do
  repeatWhile Statement.insideBraces parts.declaration parts.bound
  expect .blockClose

def blockStatement : Guarded Unit := do
  beginScope
  block parts
  endScope

def variableDeclaration : Guarded Unit := do
  let global ← readVariable .variableName
  if ← inGlobalScope then
    let name ← lastText
    (modify fun s => { s with initializing := some name } : Build Unit)
  if ← accept .equal then parts.expression else emit .litNil
  (modify fun s => { s with initializing := none } : Build Unit)
  expect .variableEnd
  defineVariable global

def ifStatement : Guarded Unit := do
  expect .ifOpen
  parts.expression
  expect .conditionClose
  let thenJump ← emitJump .jumpIfFalse
  emit .pop
  parts.statement
  let elseJump ← emitJump .jump
  patchJump thenJump
  emit .pop
  if ← accept .kwElse then parts.statement
  patchJump elseJump

def whileStatement : Guarded Unit := do
  let start ← here
  expect .whileOpen
  parts.expression
  expect .conditionClose
  let exitJump ← emitJump .jumpIfFalse
  emit .pop
  parts.statement
  emitLoop start
  patchJump exitJump
  emit .pop

def forInitializer : Guarded Unit := do
  if ← accept .semicolon then return
  else if ← accept .kwVar then variableDeclaration parts
  else expressionStatement parts

def forCondition : Guarded (Option Nat) := do
  if ← accept .semicolon then return none
  parts.expression
  expect .loopConditionEnd
  let exitJump ← emitJump .jumpIfFalse
  emit .pop
  return some exitJump

def forIncrement (start : Nat) : Guarded Nat := do
  if ← accept .rightParen then return start
  let bodyJump ← emitJump .jump
  let increment ← here
  parts.expression
  emit .pop
  expect .forClose
  emitLoop start
  patchJump bodyJump
  return increment

def forStatement : Guarded Unit := do
  beginScope
  expect .forOpen
  forInitializer parts
  let start ← here
  let exitJump ← forCondition parts
  let start ← forIncrement parts start
  parts.statement
  emitLoop start
  match exitJump with
  | none => pure ()
  | some exitJump =>
    patchJump exitJump
    emit .pop
  endScope

def statementRule : Guarded Unit := do
  if ← accept .kwPrint then printStatement parts
  else if ← accept .kwAssert then assertStatement parts
  else if ← accept .kwIf then ifStatement parts
  else if ← accept .kwReturn then returnStatement parts
  else if ← accept .kwWhile then whileStatement parts
  else if ← accept .kwFor then forStatement parts
  else if ← accept .leftBrace then blockStatement parts
  else expressionStatement parts

def parameters : Guarded Unit := do
  expect .parametersOpen
  unless ← check .rightParen do
    Statement.parameter
    repeatWhile (accept .comma) Statement.parameter parts.bound
  expect .parametersClose

def function (kind : BodyKind) : Guarded Unit := do
  openBody kind (← lastText)
  beginScope
  parameters parts
  expect .bodyOpen
  block parts
  emitReturn
  let (f, captures) ← closeBody
  emitWith .closure (← makeConstant (.function f))
  (captures.forM Statement.emitCapture : Build Unit)

def functionDeclaration : Guarded Unit := do
  let global ← readVariable .functionName
  markInitialized
  function parts .function
  defineVariable global

def method : Guarded Unit := do
  expect .methodName
  let name ← lastText
  let constant ← nameConstant name
  function parts (if name = Statement.initializerName then .initializer else .method)
  emitWith .method constant

def superclass (name : String) : Guarded Unit := do
  expect .superclassName
  readNamed (← lastText)
  if name = (← lastText) then error .inheritFromSelf
  beginScope
  addLocal "super"
  defineVariable 0
  readNamed name
  emit .inherit
  (modify fun s => { s with classes := true :: s.classes.tail } : Build Unit)

def classDeclaration : Guarded Unit := do
  expect .className
  let name ← lastText
  let constant ← nameConstant name
  declareVariable
  emitWith .makeClass constant
  defineVariable constant
  (modify fun s => { s with classes := false :: s.classes } : Build Unit)
  if ← accept .less then superclass name
  readNamed name
  expect .classOpen
  repeatWhile Statement.insideBraces (method parts) parts.bound
  expect .classClose
  emit .pop
  let hasSuperclass := (← get).classes.head?.getD false
  (modify fun s => { s with classes := s.classes.tail } : Build Unit)
  if hasSuperclass then endScope

def declarationRule : Guarded Unit := do
  if ← accept .kwClass then classDeclaration parts
  else if ← accept .kwFun then functionDeclaration parts
  else if ← accept .kwVar then variableDeclaration parts
  else statementRule parts
  if (← get).panicking then parts.recover

end Rules

/-! ## Tying the knot -/

section Knot

variable (recover : Nat → Guarded Unit)

mutual

def statement : (n : Nat) → Guarded Unit
  | 0 => halt .unfinished
  | n + 1 => do
    let tokens := (← get).left
    statementRule ⟨n, within (n + 1) .assignment, below tokens (statement n),
      below tokens (declaration n), recover (n + 1)⟩

def declaration : (n : Nat) → Guarded Unit
  | 0 => halt .unfinished
  | n + 1 => do
    let tokens := (← get).left
    declarationRule ⟨n, within (n + 1) .assignment, below tokens (statement n),
      below tokens (declaration n), recover (n + 1)⟩

end

/-- Whether there is more to read. -/
def isUnread : Build Bool := do
  return !(← accept .eof)

def script (bound : Nat) : Guarded Unit := do
  advance
  repeatWhile isUnread (declaration recover (bound + 1)) bound
  emitReturn

/-- Compiles a text by guarded rules. -/
def compile (bound firstIndex : Nat) (source : String) : Except Halt (Except Rejection Program) :=
  match script recover bound (Program.start firstIndex (Scanner.ofString source).tokens) with
  | .error h => .error h
  | .ok (_, s) => .ok (Program.conclude s)

end Knot

end Guarded

end LoxMachine
