import LoxMachine.Program.Statement

/-!
# Syntax trees

The trees of the language. A tree keeps groupings, so that it determines its tokens; a call of a
property is a call whose callee is a property.
-/

namespace LoxMachine.Syntax

/-- What an identifier can be; slots without a name, superclasses and receivers have names of their
own. -/
def IsIdentifier (name : String) : Prop :=
  name ≠ "" ∧ name ≠ "super" ∧ name ≠ "this"

inductive UnaryOp where
  | negate | not
deriving DecidableEq, Repr

inductive BinaryOp where
  | add | subtract | multiply | divide
  | equal | notEqual | greater | greaterEqual | less | lessEqual
deriving DecidableEq, Repr

inductive Expr where
  | number (n : Number)
  | string (s : String)
  | nil
  | boolean (b : Bool)
  | grouping (e : Expr)
  | variable (name : String)
  | assign (name : String) (value : Expr)
  | this
  /-- A method of the superclass. -/
  | super (name : String)
  | unary (op : UnaryOp) (e : Expr)
  | binary (op : BinaryOp) (a b : Expr)
  | and (a b : Expr)
  | or (a b : Expr)
  | get (object : Expr) (name : String)
  | set (object : Expr) (name : String) (value : Expr)
  | call (callee : Expr) (arguments : List Expr)
deriving Repr

/-- A function or method; `σ` is the type of statements. -/
structure Fun (σ : Type) where
  name : String
  parameters : List String
  body : List σ
deriving Repr

inductive Stmt where
  | expression (e : Expr)
  | print (e : Expr)
  | assert (e : Expr)
  | var (name : String) (value : Option Expr)
  | block (body : List Stmt)
  | cond (test : Expr) (yes : Stmt) (no : Option Stmt)
  | while (test : Expr) (body : Stmt)
  | for (first : Option Stmt) (test step : Option Expr) (body : Stmt)
  | return (value : Option Expr)
  | function (f : Fun Stmt)
  | cls (name : String) (parent : Option String) (methods : List (Fun Stmt))

/-! ## Operators -/

def UnaryOp.kind : UnaryOp → TokenKind
  | .negate => .minus
  | .not => .bang

def UnaryOp.code : UnaryOp → Opcode
  | .negate => .negate
  | .not => .not

def BinaryOp.kind : BinaryOp → TokenKind
  | .add => .plus
  | .subtract => .minus
  | .multiply => .asterisk
  | .divide => .slash
  | .equal => .equalEqual
  | .notEqual => .bangEqual
  | .greater => .greater
  | .greaterEqual => .greaterEqual
  | .less => .less
  | .lessEqual => .lessEqual

/-- The level of the expressions with an operator. -/
def BinaryOp.power : BinaryOp → Power
  | .equal | .notEqual => .equality
  | .greater | .greaterEqual | .less | .lessEqual => .comparison
  | .add | .subtract => .term
  | .multiply | .divide => .factor

/-- Whether an operator is the negation of the one it is compiled to. -/
def BinaryOp.negated : BinaryOp → Bool
  | .notEqual | .greaterEqual | .lessEqual => true
  | _ => false

/-- The operation of an operator, up to a negation. -/
def BinaryOp.code : BinaryOp → Opcode
  | .add => .add
  | .subtract => .subtract
  | .multiply => .multiply
  | .divide => .divide
  | .equal | .notEqual => .equal
  | .greater | .lessEqual => .greater
  | .less | .greaterEqual => .less

/-- Operators bind as the grammar has it. -/
theorem BinaryOp.ofKind_kind (op : BinaryOp) : Power.ofKind op.kind = op.power := by
  cases op <;> rfl

theorem BinaryOp.operations_kind (op : BinaryOp) :
    Expression.operations op.kind = if op.negated then [op.code, .not] else [op.code] := by
  cases op <;> rfl

/-! ## Shapes -/

/-- Whether an expression reads a property; a call of it is a call of the property. -/
def Expr.isProperty : Expr → Bool
  | .get _ _ | .super _ => true
  | _ => false

/-- Whether a statement ends in a condition that an `else` could still follow. -/
def Stmt.isOpen : Stmt → Bool
  | .cond _ _ none => true
  | .cond _ _ (some no) => no.isOpen
  | .while _ body => body.isOpen
  | .for _ _ _ body => body.isOpen
  | _ => false

/-- The body kind of a method of that name. -/
def methodKind (name : String) : BodyKind :=
  if name = Statement.initializerName then .initializer else .method

end LoxMachine.Syntax
