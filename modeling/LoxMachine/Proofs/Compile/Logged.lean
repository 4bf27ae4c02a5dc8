import LoxMachine.Proofs.Compile.Events

/-!
# Logged rules

The rules of the builder with the events that they cause. A logged rule is the rule with every action that
reports or recovers replaced by its logged form, and every other one lifted; what it does is what the rule
does, by the theorem `act_` of its name. So the events of a text (`Logged.compile`) are those of its
compilation.
-/

namespace LoxMachine.Logged

open Builder

variable {α β : Type}

/-! ## Combinators -/

@[simp] theorem act_pure (a : α) : (pure a : Logged α).act = pure a :=
  rfl

@[simp] theorem act_bind (x : Logged α) (f : α → Logged β) :
    (x >>= f).act = x.act >>= fun a => (f a).act :=
  rfl

@[simp] theorem act_ite (p : Prop) [Decidable p] (x y : Logged α) :
    (if p then x else y).act = if p then x.act else y.act := by
  split <;> rfl

@[simp] theorem act_silently (x : Build α) [Silent x] : (silently x).act = x :=
  rfl

@[simp] theorem act_read : read.act = get :=
  rfl

def repeatWhile (condition : Logged Bool) (body : Logged Unit) : (bound : Nat) → Logged Unit
  | 0 => pure ()
  | bound + 1 => do
    if ← condition then
      body
      repeatWhile condition body bound

@[simp] theorem act_repeatWhile (condition : Logged Bool) (body : Logged Unit) (bound : Nat) :
    (repeatWhile condition body bound).act = Builder.repeatWhile condition.act body.act bound := by
  induction bound with
  | zero => rfl
  | succ bound ih => simp [repeatWhile, Builder.repeatWhile, ih]

/-! ## Errors and tokens -/

def errorAt (t : Token) (d : Defect) : Logged Unit where
  act := Builder.errorAt t d
  log _ := [.report (.grammar t.line (.ofToken t) d)]
  course s := course_report s _

@[simp] theorem act_errorAt (t : Token) (d : Defect) : (errorAt t d).act = Builder.errorAt t d :=
  rfl

def error (d : Defect) : Logged Unit := do
  errorAt (← read).previous d

@[simp] theorem act_error (d : Defect) : (error d).act = Builder.error d :=
  rfl

def errorAtCurrent (d : Defect) : Logged Unit := do
  errorAt (← read).current d

@[simp] theorem act_errorAtCurrent (d : Defect) :
    (errorAtCurrent d).act = Builder.errorAtCurrent d :=
  rfl

def advance : Logged Unit where
  act := Builder.advance
  log s := scanReports s.upcoming
  course s :=
    have h := course_pull { s with previous := s.current } s.upcoming
    ⟨h.errors, h.panicking, h.scanned⟩

@[simp] theorem act_advance : advance.act = Builder.advance :=
  rfl

def accept (kind : TokenKind) : Logged Bool := do
  if ← silently (check kind) then
    advance
    return true
  else return false

@[simp] theorem act_accept (kind : TokenKind) : (accept kind).act = Builder.accept kind := by
  simp [accept, Builder.accept]

def expect (e : Expectation) : Logged Unit := do
  unless ← accept e.kind do errorAtCurrent (.expect e)

@[simp] theorem act_expect (e : Expectation) : (expect e).act = Builder.expect e := by
  simp [expect, Builder.expect]

/-- The end of a panic. -/
def recover : Logged Unit where
  act := modify fun s => { s with panicking := false }
  log _ := [.recover]
  course _ := ⟨by simp [entries]; rfl, rfl, [], rfl, by simp⟩

def synchronize (bound : Nat) : Logged Unit := do
  recover
  repeatWhile (silently do return !(← get).atBoundary) advance bound

@[simp] theorem act_synchronize (bound : Nat) :
    (synchronize bound).act = Builder.synchronize bound := by
  simp [synchronize, Builder.synchronize, recover]

/-! ## Code -/

def patchJump (offset : Nat) : Logged Unit := do
  unless ← silently (onChunk fun _ c => c.patchJump offset) do error .jumpTooLarge

@[simp] theorem act_patchJump (offset : Nat) : (patchJump offset).act = Builder.patchJump offset := by
  simp [patchJump, Builder.patchJump]

def emitLoop (start : Nat) : Logged Unit := do
  unless ← silently (onChunk fun line c => c.writeLoop start line) do error .loopTooLarge

@[simp] theorem act_emitLoop (start : Nat) : (emitLoop start).act = Builder.emitLoop start := by
  simp [emitLoop, Builder.emitLoop]

def makeConstant (v : Value) : Logged Nat := do
  match ← silently (onChunk fun _ c => c.addConstant v) with
  | some index => return index
  | none =>
    error .tooManyConstants
    return 0

@[simp] theorem act_makeConstant (v : Value) : (makeConstant v).act = Builder.makeConstant v := by
  simp only [makeConstant, Builder.makeConstant, act_bind, act_silently]
  congr 1
  funext index
  cases index <;> rfl

def emitConstant (v : Value) : Logged Unit := do
  emitWith .constant (← makeConstant v)

@[simp] theorem act_emitConstant (v : Value) : (emitConstant v).act = Builder.emitConstant v := by
  simp [emitConstant, Builder.emitConstant]

def nameConstant (name : String) : Logged Nat :=
  makeConstant (.string name)

@[simp] theorem act_nameConstant (name : String) :
    (nameConstant name).act = Builder.nameConstant name :=
  act_makeConstant _

/-! ## Variables -/

def addLocal (name : String) : Logged Unit := do
  let full ← silently <| onBody fun b =>
    match b.addLocal? name with
    | some b => (false, b)
    | none => (true, b)
  if full then error .tooManyLocals

@[simp] theorem act_addLocal (name : String) : (addLocal name).act = Builder.addLocal name :=
  bind_congr fun full => act_ite (full = true) (error .tooManyLocals) (pure ())

def declareVariable : Logged Unit := do
  unless ← silently inGlobalScope do
    let name ← silently lastText
    if (← read).body.isDeclared name then error .duplicateLocal
    addLocal name

@[simp] theorem act_declareVariable : declareVariable.act = Builder.declareVariable := by
  simp [declareVariable, Builder.declareVariable]

def readVariable (e : Expectation) : Logged Nat := do
  expect e
  declareVariable
  if ← silently inGlobalScope then nameConstant (← silently lastText) else return 0

@[simp] theorem act_readVariable (e : Expectation) :
    (readVariable e).act = Builder.readVariable e := by
  simp [readVariable, Builder.readVariable]

def resolve (name : String) : Logged Variable := do
  match Body.slot? name (← read).body.locals with
  | some slot => return .local slot
  | none =>
    match ← silently (resolveOutside name) with
    | .found index => return .captured index
    | .absent =>
      if (← read).isInitializing name then error .ownInitializer
      return .global (← nameConstant name)
    | .full =>
      error .tooManyUpvalues
      return .captured 0

@[simp] theorem act_resolve (name : String) : (resolve name).act = Builder.resolve name := by
  simp only [resolve, Builder.resolve, act_bind, act_read]
  congr 1
  funext s
  cases Body.slot? name s.body.locals with
  | some slot => rfl
  | none =>
      simp only [act_bind, act_silently]
      congr 1
      funext r
      cases r <;> simp

def readNamed (name : String) : Logged Unit := do
  let v ← resolve name
  emitWith v.getOp v.operand

@[simp] theorem act_readNamed (name : String) : (readNamed name).act = Builder.readNamed name := by
  simp [readNamed, Builder.readNamed]

/-! ## Expressions -/

def number : Logged Unit := do
  match Number.ofLiteral? (← silently lastText) with
  | some n => emitConstant (.number n)
  | none => error .invalidNumber

@[simp] theorem act_number : number.act = Expression.number := by
  simp only [number, Expression.number, act_bind, act_silently]
  congr 1
  funext text
  cases Number.ofLiteral? text <;> simp

def string : Logged Unit := do
  emitConstant (.string (← read).previous.contents)

@[simp] theorem act_string : string.act = Expression.string := by
  simp [string, Expression.string]

section Operands

variable (bound : Nat) (sub : Power → Logged Unit)

def named (name : String) (canAssign : Bool) : Logged Unit := do
  let v ← resolve name
  if ← (if canAssign then accept .equal else return false) then
    sub .assignment
    emitWith v.setOp v.operand
  else emitWith v.getOp v.operand

@[simp] theorem act_named (name : String) (canAssign : Bool) :
    (named sub name canAssign).act = Expression.named (fun p => (sub p).act) name canAssign := by
  simp [named, Expression.named, Expression.expression]

def grouping : Logged Unit := do
  sub .assignment
  expect .groupClose

@[simp] theorem act_grouping : (grouping sub).act = Expression.grouping fun p => (sub p).act := by
  simp [grouping, Expression.grouping, Expression.expression]

def unary (op : Opcode) : Logged Unit := do
  sub .unary
  emit op

@[simp] theorem act_unary (op : Opcode) :
    (unary sub op).act = Expression.unary (fun p => (sub p).act) op := by
  simp [unary, Expression.unary]

def argumentsFrom : (bound count : Nat) → Logged Nat
  | 0, count => return count
  | bound + 1, count => do
    sub .assignment
    if count = Expression.maxArguments then error .tooManyArguments
    if ← accept .comma then argumentsFrom bound (count + 1) else return count + 1

@[simp] theorem act_argumentsFrom (count : Nat) :
    (argumentsFrom sub bound count).act =
      Expression.argumentsFrom (fun p => (sub p).act) bound count := by
  induction bound generalizing count with
  | zero => rfl
  | succ bound ih => simp [argumentsFrom, Expression.argumentsFrom, Expression.expression, ih]

def arguments : Logged Nat := do
  let count ← if ← silently (check .rightParen) then pure 0 else argumentsFrom sub bound 0
  expect .argumentsClose
  return min count Expression.maxArguments

@[simp] theorem act_arguments :
    (arguments bound sub).act = Expression.arguments bound fun p => (sub p).act := by
  simp [arguments, Expression.arguments]

def this : Logged Unit := do
  if (← read).classes.isEmpty then error .thisOutsideClass
  else readNamed (← silently lastText)

@[simp] theorem act_this : this.act = Expression.this := by
  simp [this, Expression.this]

def super : Logged Unit := do
  match (← read).classes.head? with
  | none => error .superOutsideClass
  | some hasSuperclass => unless hasSuperclass do error .superWithoutSuperclass
  expect .superDot
  expect .superclassMethodName
  let name ← nameConstant (← silently lastText)
  readNamed "this"
  if ← accept .leftParen then
    let count ← arguments bound sub
    readNamed "super"
    emitWith .superInvoke name
    emitByte count.toUInt8
  else
    readNamed "super"
    emitWith .getSuper name

@[simp] theorem act_super :
    (super bound sub).act = Expression.super bound fun p => (sub p).act := by
  simp only [super, Expression.super, act_bind, act_read]
  congr 1
  funext s
  cases s.classes.head? <;> simp

def opening (canAssign : Bool) : TokenKind → Option (Logged Unit)
  | .leftParen => some (grouping sub)
  | .minus => some (unary sub .negate)
  | .bang => some (unary sub .not)
  | .identifier => some do named sub (← silently lastText) canAssign
  | .string => some string
  | .number => some number
  | .kwFalse => some (emit .litFalse)
  | .kwTrue => some (emit .litTrue)
  | .kwNil => some (emit .litNil)
  | .kwSuper => some (super bound sub)
  | .kwThis => some this
  | _ => none

theorem act_opening (canAssign : Bool) (kind : TokenKind) :
    (opening bound sub canAssign kind).map act =
      Expression.opening bound (fun p => (sub p).act) canAssign kind := by
  cases kind <;> simp [opening, Expression.opening, Expression.literal]

def binary (operator : TokenKind) : Logged Unit := do
  sub (Power.ofKind operator).next
  ((Expression.operations operator).forM emit : Build Unit)

@[simp] theorem act_binary (operator : TokenKind) :
    (binary sub operator).act = Expression.binary (fun p => (sub p).act) operator := by
  simp [binary, Expression.binary]

def call : Logged Unit := do
  let count ← arguments bound sub
  emitWith .call count

@[simp] theorem act_call : (call bound sub).act = Expression.call bound fun p => (sub p).act := by
  simp [call, Expression.call]

def property (canAssign : Bool) : Logged Unit := do
  expect .propertyName
  let name ← nameConstant (← silently lastText)
  if ← (if canAssign then accept .equal else return false) then
    sub .assignment
    emitWith .setProperty name
  else if ← accept .leftParen then
    let count ← arguments bound sub
    emitWith .invoke name
    emitByte count.toUInt8
  else emitWith .getProperty name

@[simp] theorem act_property (canAssign : Bool) :
    (property bound sub canAssign).act =
      Expression.property bound (fun p => (sub p).act) canAssign := by
  simp [property, Expression.property, Expression.expression]

def and : Logged Unit := do
  let endJump ← silently (emitJump .jumpIfFalse)
  emit .pop
  sub .and
  patchJump endJump

@[simp] theorem act_and : (and sub).act = Expression.and fun p => (sub p).act := by
  simp [and, Expression.and]

def or : Logged Unit := do
  let elseJump ← silently (emitJump .jumpIfFalse)
  let endJump ← silently (emitJump .jump)
  patchJump elseJump
  emit .pop
  sub .or
  patchJump endJump

@[simp] theorem act_or : (or sub).act = Expression.or fun p => (sub p).act := by
  simp [or, Expression.or]

def continuation (canAssign : Bool) (operator : TokenKind) : Logged Unit :=
  match operator with
  | .leftParen => call bound sub
  | .dot => property bound sub canAssign
  | .kwAnd => and sub
  | .kwOr => or sub
  | .minus | .plus | .slash | .asterisk | .bangEqual | .equalEqual | .greater | .greaterEqual
  | .less | .lessEqual => binary sub operator
  | _ => pure ()

@[simp] theorem act_continuation (canAssign : Bool) (operator : TokenKind) :
    (continuation bound sub canAssign operator).act =
      Expression.continuation bound (fun p => (sub p).act) canAssign operator := by
  cases operator <;> simp [continuation, Expression.continuation]

def rule (least : Power) : Logged Unit := do
  advance
  let canAssign : Bool := least ≤ .assignment
  match opening bound sub canAssign (← read).previous.kind with
  | none => error .expectExpression
  | some first =>
    first
    repeatWhile (silently do return least ≤ Power.ofKind (← get).current.kind)
      (do
        advance
        continuation bound sub canAssign (← read).previous.kind)
      bound
    if ← (if canAssign then accept .equal else return false) then
      error .invalidAssignmentTarget

@[simp] theorem act_rule (least : Power) :
    (rule bound sub least).act = Expression.rule bound (fun p => (sub p).act) least := by
  simp only [rule, Expression.rule, act_bind, act_advance, act_read]
  congr 1
  funext _
  congr 1
  funext s
  rw [← act_opening]
  cases opening bound sub (decide (least ≤ .assignment)) s.previous.kind <;> simp

end Operands

def within : (n : Nat) → Power → Logged Unit
  | 0, _ => pure ()
  | n + 1, least => rule n (within n) least

@[simp] theorem act_within (n : Nat) (least : Power) :
    (within n least).act = Expression.within n least := by
  induction n generalizing least with
  | zero => rfl
  | succ n ih => simp [within, Expression.within, ih]

def parse (bound : Nat) (least : Power) : Logged Unit :=
  within (bound + 1) least

@[simp] theorem act_parse (bound : Nat) (least : Power) :
    (parse bound least).act = Expression.parse bound least :=
  act_within _ _

/-! ## Statements -/

/-- The logged parsers for the parts of a construct. -/
structure Parts where
  bound : Nat
  expression : Logged Unit
  statement : Logged Unit
  declaration : Logged Unit

def Parts.act (parts : Parts) : Statement.Parts :=
  ⟨parts.bound, parts.expression.act, parts.statement.act, parts.declaration.act⟩

section Rules

variable (parts : Parts)

def printStatement : Logged Unit := do
  parts.expression
  expect .valueEnd
  emit .print

@[simp] theorem act_printStatement :
    (printStatement parts).act = Statement.printStatement parts.act := by
  simp [printStatement, Statement.printStatement, Parts.act]

def assertStatement : Logged Unit := do
  parts.expression
  expect .assertionEnd
  emit .assert

@[simp] theorem act_assertStatement :
    (assertStatement parts).act = Statement.assertStatement parts.act := by
  simp [assertStatement, Statement.assertStatement, Parts.act]

def expressionStatement : Logged Unit := do
  parts.expression
  expect .expressionEnd
  emit .pop

@[simp] theorem act_expressionStatement :
    (expressionStatement parts).act = Statement.expressionStatement parts.act := by
  simp [expressionStatement, Statement.expressionStatement, Parts.act]

def returnStatement : Logged Unit := do
  if (← read).body.kind = .script then error .topLevelReturn
  if ← accept .semicolon then emitReturn
  else
    if (← read).body.kind = .initializer then error .initializerReturn
    parts.expression
    expect .returnEnd
    emit .ret

@[simp] theorem act_returnStatement :
    (returnStatement parts).act = Statement.returnStatement parts.act := by
  simp [returnStatement, Statement.returnStatement, Parts.act]

instance : Silent Statement.insideBraces :=
  inferInstanceAs (Silent (check .rightBrace >>= fun brace => check .eof >>= fun eof =>
    pure (!brace && !eof)))

def block : Logged Unit := do
  repeatWhile (silently Statement.insideBraces) parts.declaration parts.bound
  expect .blockClose

@[simp] theorem act_block : (block parts).act = Statement.block parts.act := by
  simp [block, Statement.block, Parts.act]

def blockStatement : Logged Unit := do
  beginScope
  block parts
  endScope

@[simp] theorem act_blockStatement :
    (blockStatement parts).act = Statement.blockStatement parts.act := by
  simp [blockStatement, Statement.blockStatement]

/-! ### Variables -/

def variableDeclaration : Logged Unit := do
  let global ← readVariable .variableName
  if ← silently inGlobalScope then
    let name ← silently lastText
    (modify fun s => { s with initializing := some name } : Build Unit)
  if ← accept .equal then parts.expression else emit .litNil
  (modify fun s => { s with initializing := none } : Build Unit)
  expect .variableEnd
  defineVariable global

@[simp] theorem act_variableDeclaration :
    (variableDeclaration parts).act = Statement.variableDeclaration parts.act := by
  simp [variableDeclaration, Statement.variableDeclaration, Parts.act]

/-! ### Branches and loops -/

def ifStatement : Logged Unit := do
  expect .ifOpen
  parts.expression
  expect .conditionClose
  let thenJump ← silently (emitJump .jumpIfFalse)
  emit .pop
  parts.statement
  let elseJump ← silently (emitJump .jump)
  patchJump thenJump
  emit .pop
  if ← accept .kwElse then parts.statement
  patchJump elseJump

@[simp] theorem act_ifStatement :
    (ifStatement parts).act = Statement.ifStatement parts.act := by
  simp [ifStatement, Statement.ifStatement, Parts.act]

def whileStatement : Logged Unit := do
  let start ← silently here
  expect .whileOpen
  parts.expression
  expect .conditionClose
  let exitJump ← silently (emitJump .jumpIfFalse)
  emit .pop
  parts.statement
  emitLoop start
  patchJump exitJump
  emit .pop

@[simp] theorem act_whileStatement :
    (whileStatement parts).act = Statement.whileStatement parts.act := by
  simp [whileStatement, Statement.whileStatement, Parts.act]

def forInitializer : Logged Unit := do
  if ← accept .semicolon then return
  else if ← accept .kwVar then variableDeclaration parts
  else expressionStatement parts

@[simp] theorem act_forInitializer :
    (forInitializer parts).act = Statement.forInitializer parts.act := by
  simp [forInitializer, Statement.forInitializer]

def forCondition : Logged (Option Nat) := do
  if ← accept .semicolon then return none
  parts.expression
  expect .loopConditionEnd
  let exitJump ← silently (emitJump .jumpIfFalse)
  emit .pop
  return some exitJump

@[simp] theorem act_forCondition :
    (forCondition parts).act = Statement.forCondition parts.act := by
  simp [forCondition, Statement.forCondition, Parts.act]

def forIncrement (start : Nat) : Logged Nat := do
  if ← accept .rightParen then return start
  let bodyJump ← silently (emitJump .jump)
  let increment ← silently here
  parts.expression
  emit .pop
  expect .forClose
  emitLoop start
  patchJump bodyJump
  return increment

@[simp] theorem act_forIncrement (start : Nat) :
    (forIncrement parts start).act = Statement.forIncrement parts.act start := by
  simp [forIncrement, Statement.forIncrement, Parts.act]

/-- What is behind the clauses and the body of a for loop. -/
def leaveLoop : Option Nat → Logged Unit
  | none => pure ()
  | some exitJump => do
    patchJump exitJump
    emit .pop

def forStatement : Logged Unit := do
  beginScope
  expect .forOpen
  forInitializer parts
  let start ← silently here
  let exitJump ← forCondition parts
  let start ← forIncrement parts start
  parts.statement
  emitLoop start
  leaveLoop exitJump
  endScope

@[simp] theorem act_forStatement :
    (forStatement parts).act = Statement.forStatement parts.act := by
  simp only [forStatement, Statement.forStatement, act_bind, act_silently, act_expect,
    act_forInitializer, act_forCondition, act_forIncrement, act_emitLoop, Parts.act]
  refine bind_congr fun _ => bind_congr fun _ => bind_congr fun _ => bind_congr fun start =>
    bind_congr fun exitJump => ?_
  cases exitJump <;> simp [leaveLoop]

def statementRule : Logged Unit := do
  if ← accept .kwPrint then printStatement parts
  else if ← accept .kwAssert then assertStatement parts
  else if ← accept .kwIf then ifStatement parts
  else if ← accept .kwReturn then returnStatement parts
  else if ← accept .kwWhile then whileStatement parts
  else if ← accept .kwFor then forStatement parts
  else if ← accept .leftBrace then blockStatement parts
  else expressionStatement parts

@[simp] theorem act_statementRule :
    (statementRule parts).act = Statement.statementRule parts.act := by
  simp [statementRule, Statement.statementRule]

/-! ### Functions and classes -/

def parameter : Logged Unit := do
  onBody fun b => ((), { b with arity := b.arity + 1 })
  if Statement.maxParameters < (← read).body.arity then errorAtCurrent .tooManyParameters
  let constant ← readVariable .parameterName
  defineVariable constant

@[simp] theorem act_parameter : parameter.act = Statement.parameter := by
  simp [parameter, Statement.parameter]

def parameters : Logged Unit := do
  expect .parametersOpen
  unless ← silently (check .rightParen) do
    parameter
    repeatWhile (accept .comma) parameter parts.bound
  expect .parametersClose

@[simp] theorem act_parameters : (parameters parts).act = Statement.parameters parts.act := by
  simp [parameters, Statement.parameters, Parts.act]

instance (c : Capture) : Silent (Statement.emitCapture c) := by
  unfold Statement.emitCapture
  infer_instance

def function (kind : BodyKind) : Logged Unit := do
  openBody kind (← silently lastText)
  beginScope
  parameters parts
  expect .bodyOpen
  block parts
  emitReturn
  let (f, captures) ← silently closeBody
  emitWith .closure (← makeConstant (.function f))
  (captures.forM Statement.emitCapture : Build Unit)

@[simp] theorem act_function (kind : BodyKind) :
    (function parts kind).act = Statement.function parts.act kind := by
  simp [function, Statement.function]

def functionDeclaration : Logged Unit := do
  let global ← readVariable .functionName
  markInitialized
  function parts .function
  defineVariable global

@[simp] theorem act_functionDeclaration :
    (functionDeclaration parts).act = Statement.functionDeclaration parts.act := by
  simp [functionDeclaration, Statement.functionDeclaration]

def method : Logged Unit := do
  expect .methodName
  let name ← silently lastText
  let constant ← nameConstant name
  function parts (if name = Statement.initializerName then .initializer else .method)
  emitWith .method constant

@[simp] theorem act_method : (method parts).act = Statement.method parts.act := by
  simp [method, Statement.method]

def superclass (name : String) : Logged Unit := do
  expect .superclassName
  readNamed (← silently lastText)
  if name = (← silently lastText) then error .inheritFromSelf
  beginScope
  addLocal "super"
  defineVariable 0
  readNamed name
  emit .inherit
  (modify fun s => { s with classes := true :: s.classes.tail } : Build Unit)

@[simp] theorem act_superclass (name : String) :
    (superclass name).act = Statement.superclass name := by
  simp [superclass, Statement.superclass]

def classDeclaration : Logged Unit := do
  expect .className
  let name ← silently lastText
  let constant ← nameConstant name
  declareVariable
  emitWith .makeClass constant
  defineVariable constant
  (modify fun s => { s with classes := false :: s.classes } : Build Unit)
  if ← accept .less then superclass name
  readNamed name
  expect .classOpen
  repeatWhile (silently Statement.insideBraces) (method parts) parts.bound
  expect .classClose
  emit .pop
  let hasSuperclass := (← read).classes.head?.getD false
  (modify fun s => { s with classes := s.classes.tail } : Build Unit)
  if hasSuperclass then endScope

@[simp] theorem act_classDeclaration :
    (classDeclaration parts).act = Statement.classDeclaration parts.act := by
  simp [classDeclaration, Statement.classDeclaration, Parts.act]

def declarationRule : Logged Unit := do
  if ← accept .kwClass then classDeclaration parts
  else if ← accept .kwFun then functionDeclaration parts
  else if ← accept .kwVar then variableDeclaration parts
  else statementRule parts
  if (← read).panicking then synchronize parts.bound

@[simp] theorem act_declarationRule :
    (declarationRule parts).act = Statement.declarationRule parts.act := by
  simp [declarationRule, Statement.declarationRule, Parts.act]

end Rules

mutual

def statement : (n : Nat) → Logged Unit
  | 0 => pure ()
  | n + 1 => statementRule ⟨n, parse n .assignment, statement n, declaration n⟩

def declaration : (n : Nat) → Logged Unit
  | 0 => pure ()
  | n + 1 => declarationRule ⟨n, parse n .assignment, statement n, declaration n⟩

end

theorem act_parts (n : Nat) :
    (statement n).act = Statement.statement n ∧ (declaration n).act = Statement.declaration n := by
  induction n with
  | zero => exact ⟨rfl, rfl⟩
  | succ n ih =>
      obtain ⟨hstatement, hdeclaration⟩ := ih
      rw [statement, declaration, Statement.statement, Statement.declaration, act_statementRule,
        act_declarationRule, Parts.act, hstatement, hdeclaration, act_parse]
      exact ⟨rfl, rfl⟩

@[simp] theorem act_declaration (n : Nat) : (declaration n).act = Statement.declaration n :=
  (act_parts n).2

/-! ## Programs -/

def script (bound : Nat) : Logged Unit := do
  advance
  repeatWhile (do return !(← accept .eof)) (declaration (bound + 1)) bound
  emitReturn

@[simp] theorem act_script (bound : Nat) : (script bound).act = Program.script bound := by
  simp [script, Program.script]

/-- What becomes of a text, and the events on the way. -/
def compile (firstIndex : Nat) (source : String) : Except Rejection Program × List Event :=
  let tokens := (Scanner.ofString source).tokens
  let s := Program.start firstIndex tokens
  (Program.conclude ((script tokens.length).act s).2, (script tokens.length).log s)

/-- Logging changes nothing. -/
theorem compile_fst (firstIndex : Nat) (source : String) :
    (compile firstIndex source).1 = Program.compile firstIndex source := by
  rw [compile, act_script, Program.compile, Program.ofTokens]

end LoxMachine.Logged
