import LoxMachine.Number
import LoxMachine.Text.Quoted

/-!
# Values

The values a script computes with. Numbers, booleans, nil and strings are plain data. The others
are objects with an identity of their own, given by a serial number; what may change about them (the
methods of a class, the fields of an object, a captured variable) lives in the `Store` under that
number. What cannot change is part of the value, so that a value can be shown without a store.

Two values are identical exactly when they are equal in Lean. `Value.same`, the equality of the
language, is coarser on numbers only.
-/

namespace LoxMachine

/-- A compiled function. Its code is entry `index` of the store. -/
structure Function where
  index : Nat
  /-- Empty for a script. -/
  name : String
  arity : Nat
  /-- How many variables it captures. -/
  captures : Nat
deriving DecidableEq, Repr

/-- A function together with its captured variables, given by their cells in the store. -/
structure Closure where
  id : Nat
  function : Function
  cells : Array Nat
deriving DecidableEq, Repr

structure Class where
  id : Nat
  name : String
deriving DecidableEq, Repr

/-- An instance of a class. -/
structure Object where
  id : Nat
  cls : Class
deriving DecidableEq, Repr

/-- A function of the host. -/
structure Native where
  id : Nat
  name : String
deriving DecidableEq, Repr

inductive Value where
  | number (n : Number)
  | boolean (b : Bool)
  | nil
  | string (s : String)
  | function (f : Function)
  | closure (c : Closure)
  | cls (c : Class)
  | object (o : Object)
  | bound (id : Nat) (receiver : Value) (method : Closure)
  | native (n : Native)
deriving DecidableEq, Repr

instance : Inhabited Value := ⟨.nil⟩

/-! ## Truth and equality -/

namespace Value

/-- Only false and nil are taken for false. -/
def isFalsey : Value → Bool
  | .nil | .boolean false => true
  | _ => false

/-- The equality of the language. -/
def same : Value → Value → Bool
  | .number a, .number b => a.near b
  | a, b => a = b

end Value

/-! ## Texts -/

namespace Function

/-- The name that traces and listings use. -/
def title (f : Function) : String :=
  if f.name = "" then "script" else f.name

protected def toString (f : Function) : String :=
  if f.name = "" then "<script>" else "<fn " ++ f.name ++ ">"

end Function

namespace Value

/-- What printing a value writes. Strings stand in quotes as they are. -/
protected def toString : Value → String
  | .number n => n.toString
  | .boolean b => if b then "true" else "false"
  | .nil => "nil"
  | .string s => "\"" ++ s ++ "\""
  | .function f => f.toString
  | .closure c => c.function.toString
  | .cls c => "<class " ++ c.name ++ ">"
  | .object o => "<instance of " ++ o.cls.name ++ ">"
  | .bound _ _ method => method.function.toString
  | .native _ => "<native fn>"

instance : ToString Value := ⟨Value.toString⟩

/-- A description that tells the kinds of values apart. -/
def debug : Value → String
  | .number n => "Number(" ++ n.debug ++ ")"
  | .boolean b => "Boolean(" ++ (if b then "true" else "false") ++ ")"
  | .nil => "Nil"
  | .string s => "String(" ++ Text.quote s ++ ")"
  | v => "Obj(" ++ v.toString ++ ")"

/-- The description of a row of values. -/
def debugRow (vs : Array Value) : String :=
  "[" ++ ", ".intercalate (vs.toList.map debug) ++ "]"

end Value

end LoxMachine
