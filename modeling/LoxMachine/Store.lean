import Std.Data.HashMap
import LoxMachine.Chunk.Basic

/-!
# The store

The store holds what values refer to by number: the code of functions, captured variables, the
methods of classes, the fields of objects and the functions of the host. It only grows. A number
that is not in the store stands for nothing: no code, no methods, no fields.
-/

namespace LoxMachine

open Std (HashMap)

/-- A captured variable: still in its slot of the stack, or by itself. -/
inductive Cell where
  | inSlot (slot : Nat)
  | closed (v : Value)
deriving DecidableEq, Repr

/-- What a function of the host computes from the time, in seconds, and its arguments. -/
abbrev NativeFunction := Number → List Value → Value

structure Store where
  chunks : Array Chunk := #[]
  cells : Array Cell := #[]
  methods : Array (HashMap String Closure) := #[]
  fields : Array (HashMap String Value) := #[]
  natives : Array NativeFunction := #[]
  /-- The serial number of the next closure or bound method. -/
  nextId : Nat := 0

namespace Store

/-! ## Looking things up -/

def chunk (s : Store) (f : Function) : Chunk :=
  s.chunks.getD f.index {}

def method? (s : Store) (c : Class) (name : String) : Option Closure :=
  (s.methods[c.id]?).bind (·[name]?)

def field? (s : Store) (o : Object) (name : String) : Option Value :=
  (s.fields[o.id]?).bind (·[name]?)

def apply (s : Store) (n : Native) (time : Number) (arguments : List Value) : Value :=
  match s.natives[n.id]? with
  | some f => f time arguments
  | none => .nil

/-! ## New objects -/

def newFunction (s : Store) (name : String) (arity captures : Nat) (code : Chunk) :
    Function × Store :=
  (⟨s.chunks.size, name, arity, captures⟩, { s with chunks := s.chunks.push code })

def newClosure (s : Store) (f : Function) (cells : Array Nat) : Closure × Store :=
  (⟨s.nextId, f, cells⟩, { s with nextId := s.nextId + 1 })

def newClass (s : Store) (name : String) : Class × Store :=
  (⟨s.methods.size, name⟩, { s with methods := s.methods.push ∅ })

def newObject (s : Store) (c : Class) : Object × Store :=
  (⟨s.fields.size, c⟩, { s with fields := s.fields.push ∅ })

def newBound (s : Store) (receiver : Value) (method : Closure) : Value × Store :=
  (.bound s.nextId receiver method, { s with nextId := s.nextId + 1 })

def newNative (s : Store) (name : String) (f : NativeFunction) : Native × Store :=
  (⟨s.natives.size, name⟩, { s with natives := s.natives.push f })

def newCell (s : Store) (slot : Nat) : Nat × Store :=
  (s.cells.size, { s with cells := s.cells.push (.inSlot slot) })

/-! ## Changes -/

def setMethod (s : Store) (c : Class) (name : String) (method : Closure) : Store :=
  { s with methods := s.methods.modify c.id (·.insert name method) }

/-- Copies all methods of `parent` to `child`, over those of the same name. -/
def inherit (s : Store) (parent child : Class) : Store :=
  let inherited := s.methods.getD parent.id ∅
  { s with methods := s.methods.modify child.id (· ∪ inherited) }

def setField (s : Store) (o : Object) (name : String) (v : Value) : Store :=
  { s with fields := s.fields.modify o.id (·.insert name v) }

def setCell (s : Store) (cell : Nat) (v : Value) : Store :=
  { s with cells := s.cells.setIfInBounds cell (.closed v) }

end Store

end LoxMachine
