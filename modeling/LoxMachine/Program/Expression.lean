import LoxMachine.Program.Builder

/-!
# Expressions

An expression is compiled by operator precedence. What can begin one is told by the kind of its
first token (`opening`); after that each operator that binds at least as tightly as asked for
takes what stands before it as its left operand (`continuation`). A target can be assigned to only
where an assignment may stand, that is, where nothing binds more loosely.

Each rule is given the parser for its operands as an argument, and a bound on the number of tokens
left. `within` ties the knot: a nested expression has fewer tokens left.
-/

namespace LoxMachine

/-! ## Precedence -/

/-- How tightly an operator binds, the loosest first. -/
inductive Power where
  | none | assignment | or | and | equality | comparison | term | factor | unary | call | primary
deriving DecidableEq, Repr

namespace Power

def rank (p : Power) : Nat :=
  p.ctorIdx

instance : LE Power := ⟨fun a b => a.rank ≤ b.rank⟩

instance (a b : Power) : Decidable (a ≤ b) :=
  inferInstanceAs (Decidable (a.rank ≤ b.rank))

/-- The next tighter one. -/
def next : Power → Power
  | .none => .assignment
  | .assignment => .or
  | .or => .and
  | .and => .equality
  | .equality => .comparison
  | .comparison => .term
  | .term => .factor
  | .factor => .unary
  | .unary => .call
  | .call | .primary => .primary

/-- How tightly a token binds as an operator behind an operand. -/
def ofKind : TokenKind → Power
  | .leftParen | .dot => .call
  | .minus | .plus => .term
  | .slash | .asterisk => .factor
  | .bangEqual | .equalEqual => .equality
  | .greater | .greaterEqual | .less | .lessEqual => .comparison
  | .kwAnd => .and
  | .kwOr => .or
  | _ => .none

end Power

/-- The text between the quotes of a string. -/
def Token.contents (t : Token) : String :=
  String.ofList (t.lexeme.drop 1).dropLast.flatten

namespace Expression

open Builder

def maxArguments : Nat := 255

/-! ## What begins an expression -/

def literal (op : Opcode) : Build Unit :=
  emit op

def number : Build Unit := do
  match Number.ofLiteral? (← lastText) with
  | some n => emitConstant (.number n)
  | none => error .invalidNumber

def string : Build Unit := do
  emitConstant (.string (← get).previous.contents)

section Operands

variable (bound : Nat) (sub : Power → Build Unit)

def expression : Build Unit :=
  sub .assignment

/-- A variable is read, or assigned to if an equals sign follows and an assignment may stand
here. -/
def named (name : String) (canAssign : Bool) : Build Unit := do
  let v ← resolve name
  if ← (if canAssign then accept .equal else return false) then
    expression sub
    emitWith v.setOp v.operand
  else emitWith v.getOp v.operand

def grouping : Build Unit := do
  expression sub
  expect .groupClose

def unary (op : Opcode) : Build Unit := do
  sub .unary
  emit op

/-- Arguments with commas between them, behind `count` others. -/
def argumentsFrom : (bound count : Nat) → Build Nat
  | 0, count => return count
  | bound + 1, count => do
    expression sub
    if count = maxArguments then error .tooManyArguments
    if ← accept .comma then argumentsFrom bound (count + 1) else return count + 1

/-- The rest of a list of arguments; answers how many there are, as far as a byte can tell. -/
def arguments : Build Nat := do
  let count ← if ← check .rightParen then pure 0 else argumentsFrom sub bound 0
  expect .argumentsClose
  return min count maxArguments

def this : Build Unit := do
  if (← get).classes.isEmpty then error .thisOutsideClass
  else readNamed (← lastText)

/-- A method of the superclass, called at once or not. -/
def super : Build Unit := do
  match (← get).classes.head? with
  | none => error .superOutsideClass
  | some hasSuperclass => unless hasSuperclass do error .superWithoutSuperclass
  expect .superDot
  expect .superclassMethodName
  let name ← nameConstant (← lastText)
  readNamed "this"
  if ← accept .leftParen then
    let count ← arguments bound sub
    readNamed "super"
    emitWith .superInvoke name
    emitByte count.toUInt8
  else
    readNamed "super"
    emitWith .getSuper name

/-- The rule for an expression that begins with a token of that kind, if one can. -/
def opening (canAssign : Bool) : TokenKind → Option (Build Unit)
  | .leftParen => some (grouping sub)
  | .minus => some (unary sub .negate)
  | .bang => some (unary sub .not)
  | .identifier => some do named sub (← lastText) canAssign
  | .string => some string
  | .number => some number
  | .kwFalse => some (literal .litFalse)
  | .kwTrue => some (literal .litTrue)
  | .kwNil => some (literal .litNil)
  | .kwSuper => some (super bound sub)
  | .kwThis => some this
  | _ => none

/-! ## What continues an expression -/

/-- The operations of a binary operator. -/
def operations : TokenKind → List Opcode
  | .plus => [.add]
  | .minus => [.subtract]
  | .asterisk => [.multiply]
  | .slash => [.divide]
  | .equalEqual => [.equal]
  | .bangEqual => [.equal, .not]
  | .greater => [.greater]
  | .greaterEqual => [.less, .not]
  | .less => [.less]
  | .lessEqual => [.greater, .not]
  | _ => []

/-- Operators of one precedence group to the left. -/
def binary (operator : TokenKind) : Build Unit := do
  sub (Power.ofKind operator).next
  (operations operator).forM emit

def call : Build Unit := do
  let count ← arguments bound sub
  emitWith .call count

/-- A property is assigned to, called or read. -/
def property (canAssign : Bool) : Build Unit := do
  expect .propertyName
  let name ← nameConstant (← lastText)
  if ← (if canAssign then accept .equal else return false) then
    expression sub
    emitWith .setProperty name
  else if ← accept .leftParen then
    let count ← arguments bound sub
    emitWith .invoke name
    emitByte count.toUInt8
  else emitWith .getProperty name

/-- The right operand is evaluated only if the left one is not false. -/
def and : Build Unit := do
  let endJump ← emitJump .jumpIfFalse
  emit .pop
  sub .and
  patchJump endJump

/-- The right operand is evaluated only if the left one is false. -/
def or : Build Unit := do
  let elseJump ← emitJump .jumpIfFalse
  let endJump ← emitJump .jump
  patchJump elseJump
  emit .pop
  sub .or
  patchJump endJump

/-- The rule for an operator behind an operand. -/
def continuation (canAssign : Bool) (operator : TokenKind) : Build Unit :=
  match operator with
  | .leftParen => call bound sub
  | .dot => property bound sub canAssign
  | .kwAnd => and sub
  | .kwOr => or sub
  | .minus | .plus | .slash | .asterisk | .bangEqual | .equalEqual | .greater | .greaterEqual
  | .less | .lessEqual => binary sub operator
  | _ => pure ()

/-! ## Whole expressions -/

/-- An expression whose operators bind at least as tightly as `least`. -/
def rule (least : Power) : Build Unit := do
  advance
  let canAssign : Bool := least ≤ .assignment
  match opening bound sub canAssign (← get).previous.kind with
  | none => error .expectExpression
  | some first =>
    first
    repeatWhile (do return least ≤ Power.ofKind (← get).current.kind)
      (do
        advance
        continuation bound sub canAssign (← get).previous.kind)
      bound
    if ← (if canAssign then accept .equal else return false) then
      error .invalidAssignmentTarget

end Operands

/-- Parses an expression where fewer than `n` tokens are left. -/
def within : (n : Nat) → Power → Build Unit
  | 0, _ => pure ()
  | n + 1, least => rule n (within n) least

/-- Parses an expression where at most `bound` tokens are left. -/
def parse (bound : Nat) (least : Power) : Build Unit :=
  within (bound + 1) least

end Expression

end LoxMachine
