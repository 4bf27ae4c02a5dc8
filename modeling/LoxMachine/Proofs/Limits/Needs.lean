import Mathlib
import LoxMachine.Proofs.Syntax.Scope

/-!
# What a text needs

The operands of instructions are single bytes, and the distances of jumps two bytes. So a function has
room for so many local variables, captured variables, constants and parameters, and a call for so many
arguments. What a text needs of all this is settled by its tree: `Stmt.needs` lists it in the order in
which code is made, with the functions inside as needs of their own.

`Need.Fits`: a need that the machine has room for. `FitsAll`: so are the needs of a text, those within
functions included.
-/

namespace LoxMachine.Syntax

/-! ## Needs -/

/-- What a function needs. -/
inductive Need where
  /-- A number or a text among its constants. -/
  | constant (v : Value)
  /-- A variable of that name of a function around it. -/
  | capture (name : String)
  /-- So many local variables at a time, with slot zero. -/
  | locals (count : Nat)
  | arguments (count : Nat)
  /-- A function inside, with what that one needs. -/
  | function (parameters : Nat) (needs : List Need)
  /-- So many bytes of code. -/
  | bytes (count : Nat)
  /-- A jump over so many bytes. -/
  | leap (distance : Nat)

namespace Need

def constant? : Need → Option Value
  | .constant v => some v
  | _ => none

def capture? : Need → Option String
  | .capture name => some name
  | _ => none

def isFunction : Need → Bool
  | .function _ _ => true
  | _ => false

def length : Need → Nat
  | .bytes n => n
  | _ => 0

/-- The numbers and texts among the constants. -/
def constants (ns : List Need) : Finset Value :=
  (ns.filterMap constant?).toFinset

/-- The names of the captured variables. From inside a function a name leads to one variable around it. -/
def captures (ns : List Need) : Finset String :=
  (ns.filterMap capture?).toFinset

/-- How many functions there are directly inside. -/
def functions (ns : List Need) : Nat :=
  ns.countP isFunction

/-- How many bytes of code there are. -/
def size (ns : List Need) : Nat :=
  (ns.map length).sum

/-- A need of these, or of a function inside. -/
inductive Within (n : Need) : List Need → Prop where
  | here {ns} : n ∈ ns → Within n ns
  | inside {k ms ns} : .function k ms ∈ ns → Within n ms → Within n ns

/-- There is room for what is needed. The functions inside are constants, each one of its own. -/
def Fits : Need → Prop
  | .locals n => n ≤ Body.maxLocals
  | .arguments n => n ≤ Expression.maxArguments
  | .function k ns =>
    k ≤ Statement.maxParameters ∧ (constants ns).card + functions ns ≤ Chunk.maxConstants ∧
      (captures ns).card ≤ Body.maxCaptures
  | _ => True

/-- A jump is short enough. -/
def Near : Need → Prop
  | .leap d => d ≤ Chunk.maxDistance
  | _ => True

def FitsAll (ns : List Need) : Prop :=
  ∀ n : Need, n.Within ns → n.Fits

def NearAll (ns : List Need) : Prop :=
  ∀ n : Need, n.Within ns → n.Near

end Need

/-! ## Needs of names -/

namespace Scope

open Need (captures size)

/-- A name that leads nowhere is the name of a global, which is a constant. -/
def naming (c : Scope) (name : String) : List Need :=
  match c.place? name with
  | none => [.constant (.string name)]
  | some (0, _) => []
  | some (_ + 1, _) => [.capture name]

theorem naming_of_slot {c : Scope} {name : String} {slot : Nat}
    (h : slotOf? name c.inner.locals = some slot) : c.naming name = [] := by
  have hplace : c.place? name = _ := placeIn?_of_slot h
  rw [naming, hplace]

theorem naming_of_outside {c : Scope} {name : String} (h : slotOf? name c.inner.locals = none)
    (houter : placeIn? name (c.outer.map FunctionScope.locals) ≠ none) : c.naming name = [.capture name] := by
  obtain ⟨⟨level, slot⟩, hfound⟩ := Option.ne_none_iff_exists'.mp houter
  have hplace : c.place? name = _ := placeIn?_of_no_slot h
  rw [naming, hplace, hfound]
  rfl

theorem place?_of_absent {c : Scope} {name : String} (h : slotOf? name c.inner.locals = none)
    (houter : placeIn? name (c.outer.map FunctionScope.locals) = none) : c.place? name = none := by
  have hplace : c.place? name = _ := placeIn?_of_no_slot h
  rw [hplace, houter]
  rfl

theorem naming_of_absent {c : Scope} {name : String} (h : c.place? name = none) :
    c.naming name = [.constant (.string name)] := by
  rw [naming, h]

def reading (c : Scope) (name : String) : List Need :=
  c.naming name ++ [.bytes 2]

/-- A declaration inside a scope takes a slot. -/
def room (c : Scope) (name : String) : List Need :=
  match c.inner.scopes with
  | [] => []
  | _ :: _ => [.locals (c.declare name).inner.locals.length]

/-- The name of a variable that is declared outside of all scopes is a constant. -/
def globalName (c : Scope) (name : String) : List Need :=
  match c.inner.scopes with
  | [] => [.constant (.string name)]
  | _ :: _ => []

/-- Such a variable has to be defined. -/
def defining (c : Scope) : List Need :=
  match c.inner.scopes with
  | [] => [.bytes 2]
  | _ :: _ => []

/-- The end of a scope takes the variables off the stack that are there and were not at its start. -/
def leaving (c start : Scope) : List Need :=
  List.replicate (c.inner.locals.length - start.inner.locals.length) (.bytes 1)

/-- What a function answers that says nothing else. -/
def answering (c : Scope) : List Need :=
  match c.inner.kind with
  | .initializer => [.bytes 2, .bytes 1]
  | _ => [.bytes 1, .bytes 1]

/-- Each parameter takes a slot. -/
def slots (c : Scope) : List String → List Need
  | [] => []
  | name :: names => c.room name ++ (c.declare name).slots names

/-- The function around another one captures what that one captures and is no local variable there. -/
def passing (c : Scope) (ns : List Need) : List Need :=
  (ns.filterMap Need.capture?).filterMap fun name =>
    if slotOf? name c.inner.locals = none then some (.capture name) else none

/-- A function is made. Behind the instruction stand two bytes a capture. -/
def making (c : Scope) (parameters : Nat) (ns : List Need) : List Need :=
  c.passing ns ++ .function parameters ns :: .bytes 2 :: List.replicate (captures ns).card (.bytes 2)

end Scope

/-! ## Needs of expressions -/

open Need (size)

mutual

def Expr.needs (c : Scope) : Expr → List Need
  | .number n => [.constant (.number n), .bytes 2]
  | .string s => [.constant (.string s), .bytes 2]
  | .nil | .boolean _ => [.bytes 1]
  | .grouping e => e.needs c
  | .variable name => c.reading name
  | .assign name e => c.naming name ++ e.needs c ++ [.bytes 2]
  | .this => c.reading "this"
  | .super name =>
    .constant (.string name) :: c.reading "this" ++ c.reading "super" ++ [.bytes 2]
  | .unary _ e => e.needs c ++ [.bytes 1]
  | .binary op a b =>
    a.needs c ++ b.needs c ++ (Expression.operations op.kind).map fun _ => .bytes 1
  | .and a b => a.needs c ++ [.bytes 3, .bytes 1] ++ b.needs c ++ [.leap (size (b.needs c) + 1)]
  | .or a b =>
    a.needs c ++ [.bytes 3, .bytes 3, .leap 3, .bytes 1] ++ b.needs c ++ [.leap (size (b.needs c) + 1)]
  | .get o name => o.needs c ++ [.constant (.string name), .bytes 2]
  | .set o name e => o.needs c ++ [.constant (.string name)] ++ e.needs c ++ [.bytes 2]
  | .call (.get o name) as =>
    o.needs c ++ [.constant (.string name)] ++ needsOfEach c as ++
      [.arguments as.length, .bytes 2, .bytes 1]
  | .call (.super name) as =>
    .constant (.string name) :: c.reading "this" ++ needsOfEach c as ++ [.arguments as.length] ++
      c.reading "super" ++ [.bytes 2, .bytes 1]
  | .call f as => f.needs c ++ needsOfEach c as ++ [.arguments as.length, .bytes 2]

/-- Arguments, one behind the other. -/
def needsOfEach (c : Scope) : List Expr → List Need
  | [] => []
  | e :: es => e.needs c ++ needsOfEach c es

end

/-- A call of something that is not a property of an object. -/
theorem Expr.needs_call {f : Expr} (as : List Expr) (hf : f.isProperty = false) (c : Scope) :
    (Expr.call f as).needs c =
      f.needs c ++ (needsOfEach c as ++ [Need.arguments as.length, Need.bytes 2]) := by
  cases f with
  | get | super => cases hf
  | _ => simp only [Expr.needs, List.append_assoc]

namespace Scope

/-- The value of a variable is nil if nothing else is said. -/
def initializer (c : Scope) : Option Expr → List Need
  | none => [.bytes 1]
  | some e => e.needs c

/-! ## Needs of loops -/

/-- The condition of a loop and the jump out of it. -/
def testing (c : Scope) : Option Expr → List Need
  | none => []
  | some e => e.needs c ++ [.bytes 3, .bytes 1]

/-- The increment of a loop stands before its body and is jumped over, and from behind it a jump leads back
to the condition. -/
def stepping (c : Scope) (test : Nat) : Option Expr → List Need
  | none => []
  | some e =>
    .bytes 3 :: e.needs c ++
      [.bytes 1, .leap (test + size (e.needs c) + 7), .bytes 3, .leap (size (e.needs c) + 4)]

/-- From the body a jump leads back over so many bytes, to the increment if there is one. -/
def back (c : Scope) (test : Nat) : Option Expr → Nat
  | none => test
  | some e => size (e.needs c) + 4

/-- The jump out of a loop leads over its increment and its body. -/
def exiting (distance : Nat) : Option Expr → List Need
  | none => []
  | some _ => [.leap distance, .bytes 1]

/-- A loop behind its first clause. -/
def looping (c : Scope) (test step : Option Expr) (body : List Need) : List Need :=
  let first := c.testing test
  let second := c.stepping (size first) step
  first ++ second ++ body ++ [.leap (c.back (size first) step + size body + 3), .bytes 3] ++
    exiting (size second + size body + 4) test

end Scope

/-! ## Needs of statements -/

mutual

def Stmt.needs (c : Scope) : Stmt → List Need
  | .expression e | .print e | .assert e => e.needs c ++ [.bytes 1]
  | .var name value =>
    c.room name ++ c.globalName name ++ (c.initializing name).initializer value ++ c.defining
  | .block body => needsOfAll c.enter body ++ (body.foldl Scope.after c.enter).leaving c
  | .cond test yes none =>
    test.needs c ++ [.bytes 3, .bytes 1] ++ yes.needs c ++
      [.bytes 3, .leap (size (yes.needs c) + 4), .bytes 1, .leap 1]
  | .cond test yes (some no) =>
    test.needs c ++ [.bytes 3, .bytes 1] ++ yes.needs c ++
      [.bytes 3, .leap (size (yes.needs c) + 4), .bytes 1] ++ no.needs c ++
      [.leap (size (no.needs c) + 1)]
  | .while test body =>
    test.needs c ++ [.bytes 3, .bytes 1] ++ body.needs c ++
      [.leap (size (test.needs c) + size (body.needs c) + 7), .bytes 3,
        .leap (size (body.needs c) + 4), .bytes 1]
  | .for none test step body =>
    c.enter.looping test step (body.needs c.enter) ++ c.enter.leaving c
  | .for (some first) test step body =>
    first.needs c.enter ++ (c.enter.after first).looping test step (body.needs (c.enter.after first)) ++
      (c.enter.after first).leaving c
  | .return none => c.answering
  | .return (some e) => e.needs c ++ [.bytes 1]
  | .function f =>
    c.room f.name ++ c.globalName f.name ++ f.needs (c.declare f.name) .function ++ c.defining
  | .cls name none methods =>
    .constant (.string name) :: c.room name ++ [.bytes 2] ++ c.defining ++ (c.declare name).reading name ++
      needsOfMethods ((c.declare name).methods false) methods ++ [.bytes 1]
  | .cls name (some parent) methods =>
    .constant (.string name) :: c.room name ++ [.bytes 2] ++ c.defining ++
      (c.declare name).reading parent ++ (c.declare name).enter.room "super" ++
      ((c.declare name).methods true).reading name ++ [.bytes 1] ++
      ((c.declare name).methods true).reading name ++
      needsOfMethods ((c.declare name).methods true) methods ++ [.bytes 1] ++
      ((c.declare name).methods true).leaving (c.declare name)

/-- Statements, one behind the other. -/
def needsOfAll (c : Scope) : List Stmt → List Need
  | [] => []
  | s :: ss => s.needs c ++ needsOfAll (c.after s) ss

/-- A function, made at the place `c`. -/
def Fun.needs (c : Scope) (kind : BodyKind) : Fun Stmt → List Need
  | ⟨_, parameters, body⟩ =>
    c.making parameters.length
      ((c.function kind []).slots parameters ++ needsOfAll (c.function kind parameters) body)

/-- The name of a method is a constant. -/
def needsOfMethods (c : Scope) : List (Fun Stmt) → List Need
  | [] => []
  | f :: fs =>
    .constant (.string f.name) :: f.needs c (methodKind f.name) ++ [.bytes 2] ++ needsOfMethods c fs

end

/-- A loop, with or without a first clause. -/
theorem Stmt.needs_for {first : Option Stmt} {test step : Option Expr} {body : Stmt} (c : Scope) :
    (Stmt.for first test step body).needs c = first.elim [] (Stmt.needs c.enter) ++
      ((first.elim c.enter c.enter.after).looping test step (body.needs (first.elim c.enter c.enter.after)) ++
        (first.elim c.enter c.enter.after).leaving c) := by
  cases first with
  | none => rw [Stmt.needs]; rfl
  | some first => rw [Stmt.needs, List.append_assoc]; rfl

/-- The needs of a script, which is a function without parameters. -/
def needsOfScript (tree : List Stmt) : List Need :=
  [.function 0 (needsOfAll .script tree)]

end LoxMachine.Syntax
