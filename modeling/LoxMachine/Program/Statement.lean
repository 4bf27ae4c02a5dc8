import LoxMachine.Program.Expression

/-!
# Statements and declarations

The rules for everything that is not an expression. A rule is given the parsers for its parts
(`Parts`); `statement` and `declaration` tie the knot, each part having fewer tokens left than the
whole.
-/

namespace LoxMachine

open Builder

namespace Statement

/-- The parsers for the parts of a construct, and a bound on the number of tokens left. -/
structure Parts where
  bound : Nat
  expression : Build Unit
  statement : Build Unit
  declaration : Build Unit

def maxParameters : Nat := 255

section Rules

variable (parts : Parts)

/-! ## Simple statements -/

def printStatement : Build Unit := do
  parts.expression
  expect .valueEnd
  emit .print

def assertStatement : Build Unit := do
  parts.expression
  expect .assertionEnd
  emit .assert

def expressionStatement : Build Unit := do
  parts.expression
  expect .expressionEnd
  emit .pop

def returnStatement : Build Unit := do
  if (← get).body.kind = .script then error .topLevelReturn
  if ← accept .semicolon then emitReturn
  else
    if (← get).body.kind = .initializer then error .initializerReturn
    parts.expression
    expect .returnEnd
    emit .ret

/-- Whether what stands between braces goes on. -/
def insideBraces : Build Bool := do
  return !(← check .rightBrace) && !(← check .eof)

/-- The declarations of a block, whose brace has been read, up to its end. -/
def block : Build Unit := do
  repeatWhile insideBraces parts.declaration parts.bound
  expect .blockClose

def blockStatement : Build Unit := do
  beginScope
  block parts
  endScope

/-! ## Variables -/

def variableDeclaration : Build Unit := do
  let global ← readVariable .variableName
  if ← inGlobalScope then
    let name ← lastText
    modify fun s => { s with initializing := some name }
  if ← accept .equal then parts.expression else emit .litNil
  modify fun s => { s with initializing := none }
  expect .variableEnd
  defineVariable global

/-! ## Branches and loops -/

def ifStatement : Build Unit := do
  expect .ifOpen
  parts.expression
  expect .conditionClose
  let thenJump ← emitJump .jumpIfFalse
  emit .pop
  parts.statement
  let elseJump ← emitJump .jump
  patchJump thenJump
  emit .pop
  if ← accept .kwElse then parts.statement
  patchJump elseJump

def whileStatement : Build Unit := do
  let start ← here
  expect .whileOpen
  parts.expression
  expect .conditionClose
  let exitJump ← emitJump .jumpIfFalse
  emit .pop
  parts.statement
  emitLoop start
  patchJump exitJump
  emit .pop

/-- The first clause of a for loop. -/
def forInitializer : Build Unit := do
  if ← accept .semicolon then return
  else if ← accept .kwVar then variableDeclaration parts
  else expressionStatement parts

/-- The second clause; answers the jump out of the loop if there is a condition. -/
def forCondition : Build (Option Nat) := do
  if ← accept .semicolon then return none
  parts.expression
  expect .loopConditionEnd
  let exitJump ← emitJump .jumpIfFalse
  emit .pop
  return some exitJump

/-- The third clause stands before the body and is jumped over; answers where the loop goes on after
the body. -/
def forIncrement (start : Nat) : Build Nat := do
  if ← accept .rightParen then return start
  let bodyJump ← emitJump .jump
  let increment ← here
  parts.expression
  emit .pop
  expect .forClose
  emitLoop start
  patchJump bodyJump
  return increment

def forStatement : Build Unit := do
  beginScope
  expect .forOpen
  forInitializer parts
  let start ← here
  let exitJump ← forCondition parts
  let start ← forIncrement parts start
  parts.statement
  emitLoop start
  match exitJump with
  | none => pure ()
  | some exitJump =>
    patchJump exitJump
    emit .pop
  endScope

/-- A statement, which no declaration is. -/
def statementRule : Build Unit := do
  if ← accept .kwPrint then printStatement parts
  else if ← accept .kwAssert then assertStatement parts
  else if ← accept .kwIf then ifStatement parts
  else if ← accept .kwReturn then returnStatement parts
  else if ← accept .kwWhile then whileStatement parts
  else if ← accept .kwFor then forStatement parts
  else if ← accept .leftBrace then blockStatement parts
  else expressionStatement parts

/-! ## Functions and classes -/

def parameter : Build Unit := do
  onBody fun b => ((), { b with arity := b.arity + 1 })
  if maxParameters < (← get).body.arity then errorAtCurrent .tooManyParameters
  let constant ← readVariable .parameterName
  defineVariable constant

def parameters : Build Unit := do
  expect .parametersOpen
  unless ← check .rightParen do
    parameter
    repeatWhile (accept .comma) parameter parts.bound
  expect .parametersClose

/-- The captures of a closure stand behind its instruction, two bytes each. -/
def emitCapture (c : Capture) : Build Unit := do
  emitByte (if c.fromLocal then 1 else 0)
  emitByte c.index.toUInt8

/-- Parameters and body of a function whose name has been read, and the closure made of it. -/
def function (kind : BodyKind) : Build Unit := do
  openBody kind (← lastText)
  beginScope
  parameters parts
  expect .bodyOpen
  block parts
  emitReturn
  let (f, captures) ← closeBody
  emitWith .closure (← makeConstant (.function f))
  captures.forM emitCapture

def functionDeclaration : Build Unit := do
  let global ← readVariable .functionName
  markInitialized
  function parts .function
  defineVariable global

/-- The name of the methods that initialize objects. -/
def initializerName : String := "init"

def method : Build Unit := do
  expect .methodName
  let name ← lastText
  let constant ← nameConstant name
  function parts (if name = initializerName then .initializer else .method)
  emitWith .method constant

/-- The superclass of the class of that name. It is kept in a scope of its own, which ends with the
class. -/
def superclass (name : String) : Build Unit := do
  expect .superclassName
  readNamed (← lastText)
  if name = (← lastText) then error .inheritFromSelf
  beginScope
  addLocal "super"
  defineVariable 0
  readNamed name
  emit .inherit
  modify fun s => { s with classes := true :: s.classes.tail }

def classDeclaration : Build Unit := do
  expect .className
  let name ← lastText
  let constant ← nameConstant name
  declareVariable
  emitWith .makeClass constant
  defineVariable constant
  modify fun s => { s with classes := false :: s.classes }
  if ← accept .less then superclass name
  readNamed name
  expect .classOpen
  repeatWhile insideBraces (method parts) parts.bound
  expect .classClose
  emit .pop
  let hasSuperclass := (← get).classes.head?.getD false
  modify fun s => { s with classes := s.classes.tail }
  if hasSuperclass then endScope

/-- A declaration or statement. If it left the builder in panic, reads on to the next one. -/
def declarationRule : Build Unit := do
  if ← accept .kwClass then classDeclaration parts
  else if ← accept .kwFun then functionDeclaration parts
  else if ← accept .kwVar then variableDeclaration parts
  else statementRule parts
  if (← get).panicking then synchronize parts.bound

end Rules

/-! ## Tying the knot -/

mutual

/-- Parses a statement where fewer than `n` tokens are left. -/
def statement : (n : Nat) → Build Unit
  | 0 => pure ()
  | n + 1 =>
    statementRule ⟨n, Expression.parse n .assignment, statement n, declaration n⟩

/-- Parses a declaration where fewer than `n` tokens are left. -/
def declaration : (n : Nat) → Build Unit
  | 0 => pure ()
  | n + 1 =>
    declarationRule ⟨n, Expression.parse n .assignment, statement n, declaration n⟩

end

end Statement

end LoxMachine
