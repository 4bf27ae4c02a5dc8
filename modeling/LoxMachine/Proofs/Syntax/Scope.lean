import LoxMachine.Proofs.Syntax.Tree

/-!
# Scopes and static rules

What a name stands for is settled by the text around it. A `Scope` is what can be seen of that text
at one place: the local variables of the function there, scope by scope, those of the functions
around it, and the open classes. A name leads to the innermost variable of that name, which is told
by how many functions lie in between and by its slot (`Scope.place?`); a name that leads nowhere is
global.

`Stmt.Legal`: the rules of the language that no grammar can state.
-/

namespace LoxMachine.Syntax

/-! ## Functions -/

/-- A function as the names in it see it. -/
structure FunctionScope where
  kind : BodyKind
  /-- The local variables of the open scopes, the innermost scope first, in each the newest first.
  Declarations outside of all scopes are global. -/
  scopes : List (List String)

namespace FunctionScope

/-- All local variables, the newest first. The oldest one, in slot zero, is the receiver. -/
def locals (f : FunctionScope) : List String :=
  f.scopes.flatten ++ [Body.receiverName f.kind]

/-- A scope begins. -/
def enter (f : FunctionScope) : FunctionScope :=
  { f with scopes := [] :: f.scopes }

/-- A declaration makes a variable of the innermost scope. -/
def declare (f : FunctionScope) (name : String) : FunctionScope :=
  match f.scopes with
  | [] => f
  | scope :: scopes => { f with scopes := (name :: scope) :: scopes }

/-- No two local variables of one scope have the same name. -/
def MayDeclare (f : FunctionScope) (name : String) : Prop :=
  ∀ scope ∈ f.scopes.head?, name ∉ scope

end FunctionScope

/-- The slot of the newest variable of that name. -/
def slotOf? (name : String) : List String → Option Nat
  | [] => none
  | x :: xs => if x = name then some xs.length else slotOf? name xs

/-- How many functions outwards, and in which slot, the innermost variable of that name is. -/
def placeIn? (name : String) : List (List String) → Option (Nat × Nat)
  | [] => none
  | locals :: around =>
    match slotOf? name locals with
    | some slot => some (0, slot)
    | none => (placeIn? name around).map fun (level, slot) => (level + 1, slot)

theorem placeIn?_of_slot {name : String} {locals : List String} {around : List (List String)} {slot : Nat}
    (h : slotOf? name locals = some slot) : placeIn? name (locals :: around) = some (0, slot) := by
  rw [placeIn?, h]

theorem placeIn?_of_no_slot {name : String} {locals : List String} {around : List (List String)}
    (h : slotOf? name locals = none) : placeIn? name (locals :: around) =
      (placeIn? name around).map fun (level, slot) => (level + 1, slot) := by
  rw [placeIn?, h]

/-! ## Places in a text -/

structure Scope where
  inner : FunctionScope
  /-- The functions around, the nearest first. -/
  outer : List FunctionScope
  /-- The open classes, the innermost first, and whether each has a superclass. -/
  classes : List Bool
  /-- The variable whose initializer this is. -/
  pending : Option String

namespace Scope

/-- The start of a script. -/
def script : Scope :=
  ⟨⟨.script, []⟩, [], [], none⟩

/-- Where a name leads, if it is not global. A variable is not there before its initializer ends. -/
def place? (c : Scope) (name : String) : Option (Nat × Nat) :=
  placeIn? name ((c.inner :: c.outer).map FunctionScope.locals)

def enter (c : Scope) : Scope :=
  { c with inner := c.inner.enter }

def declare (c : Scope) (name : String) : Scope :=
  { c with inner := c.inner.declare name }

/-- The initializer of a variable. -/
def initializing (c : Scope) (name : String) : Scope :=
  { c with pending := some name }

/-- The body of a function, with its parameters. -/
def function (c : Scope) (kind : BodyKind) (parameters : List String) : Scope :=
  ⟨⟨kind, [parameters.reverse]⟩, c.inner :: c.outer, c.classes, none⟩

/-- The methods of a class. A superclass is a variable of a scope of its own around them. -/
def methods (c : Scope) (inherits : Bool) : Scope :=
  { c with
    inner := if inherits then c.inner.enter.declare "super" else c.inner
    classes := inherits :: c.classes }

/-- Behind a statement or declaration. -/
def after (c : Scope) : Stmt → Scope
  | .var name _ | .cls name _ _ | .function ⟨name, _, _⟩ => c.declare name
  | _ => c

end Scope

/-! ## Names in expressions -/

/-- How an expression refers to something that is declared elsewhere. -/
inductive Use where
  | read (name : String)
  | write (name : String)
  | this
  | super
deriving DecidableEq, Repr

mutual

/-- All that an expression refers to, in the order in which it is evaluated. -/
def Expr.uses : Expr → List Use
  | .number _ | .string _ | .nil | .boolean _ => []
  | .variable name => [.read name]
  | .this => [.this]
  | .super _ => [.this, .super]
  | .grouping e | .unary _ e | .get e _ => e.uses
  | .assign name e => e.uses ++ [.write name]
  | .binary _ a b | .and a b | .or a b | .set a _ b => a.uses ++ b.uses
  | .call (.super _) as => .this :: (usesOfAll as ++ [.super])
  | .call f as => f.uses ++ usesOfAll as

def usesOfAll : List Expr → List Use
  | [] => []
  | e :: es => e.uses ++ usesOfAll es

end

/-! ## The rules -/

namespace Scope

/-- A variable does not occur in its own initializer, unless an outer one of that name is meant. An
object is there in methods only, and a superclass where the innermost class has one. -/
def Allows (c : Scope) : Use → Prop
  | .read name | .write name => c.pending = some name → c.place? name ≠ none
  | .this => c.classes ≠ []
  | .super => c.classes.head? = some true

def AllowsAll (c : Scope) (us : List Use) : Prop :=
  ∀ u ∈ us, c.Allows u

/-- An expression, if there is one, refers to nothing that is not allowed. -/
def Admits (c : Scope) : Option Expr → Prop
  | none => True
  | some e => c.AllowsAll e.uses

@[simp] theorem allowsAll_nil (c : Scope) : c.AllowsAll [] :=
  nofun

@[simp] theorem allowsAll_cons {c : Scope} {u : Use} {us : List Use} :
    c.AllowsAll (u :: us) ↔ c.Allows u ∧ c.AllowsAll us :=
  List.forall_mem_cons

@[simp] theorem allowsAll_append {c : Scope} {us vs : List Use} :
    c.AllowsAll (us ++ vs) ↔ c.AllowsAll us ∧ c.AllowsAll vs :=
  List.forall_mem_append

end Scope

mutual

def Stmt.Legal (c : Scope) : Stmt → Prop
  | .expression e | .print e | .assert e => c.Admits (some e)
  | .var name value => c.inner.MayDeclare name ∧ (c.initializing name).Admits value
  | .block body => legalAll c.enter body
  | .cond test yes none => c.Admits (some test) ∧ yes.Legal c
  | .cond test yes (some no) => c.Admits (some test) ∧ yes.Legal c ∧ no.Legal c
  | .while test body => c.Admits (some test) ∧ body.Legal c
  | .for none test step body => c.enter.Admits test ∧ c.enter.Admits step ∧ body.Legal c.enter
  | .for (some first) test step body =>
    first.Legal c.enter ∧ (c.enter.after first).Admits test ∧ (c.enter.after first).Admits step ∧
      body.Legal (c.enter.after first)
  | .return none => c.inner.kind ≠ .script
  | .return (some e) =>
    c.inner.kind ≠ .script ∧ c.inner.kind ≠ .initializer ∧ c.Admits (some e)
  | .function f => c.inner.MayDeclare f.name ∧ f.Legal (c.declare f.name) .function
  | .cls name parent methods =>
    c.inner.MayDeclare name ∧ parent ≠ some name ∧
      legalMethods ((c.declare name).methods parent.isSome) methods

/-- Statements, one behind the other. -/
def legalAll (c : Scope) : List Stmt → Prop
  | [] => True
  | s :: ss => s.Legal c ∧ legalAll (c.after s) ss

/-- The parameters of a function are in the scope of its body. -/
def Fun.Legal (c : Scope) (kind : BodyKind) : Fun Stmt → Prop
  | ⟨_, parameters, body⟩ => parameters.Nodup ∧ legalAll (c.function kind parameters) body

def legalMethods (c : Scope) : List (Fun Stmt) → Prop
  | [] => True
  | f :: fs => f.Legal c (methodKind f.name) ∧ legalMethods c fs

end

end LoxMachine.Syntax
