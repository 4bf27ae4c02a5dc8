import LoxMachine.Chunk.Basic

/-!
# Function bodies under construction

While a function is being compiled, its local variables are known by the slots they will have on the
stack, and the variables it captures from the functions around it by their place in its list of
captures. A capture refers either to a local variable of the function directly around it or to a
capture of that function; `resolve` follows a name outwards and adds the captures that lead to it on
the way.
-/

namespace LoxMachine

structure Local where
  name : String
  /-- How many scopes are around it; nothing while its initializer is being compiled. -/
  depth : Option Nat
  /-- Whether an inner function captures it. -/
  captured : Bool := false
deriving DecidableEq, Repr

/-- Where a captured variable comes from: a slot of the function around it, or one of its
captures. -/
structure Capture where
  index : Nat
  fromLocal : Bool
deriving DecidableEq, Repr

inductive BodyKind where
  | script | function | method | initializer
deriving DecidableEq, Repr

structure Body where
  kind : BodyKind
  name : String
  arity : Nat := 0
  chunk : Chunk := {}
  /-- The innermost first. The slot of a local is the number of those behind it. -/
  locals : List Local
  captures : Array Capture := #[]
  /-- How many scopes are open. -/
  depth : Nat := 0
deriving Repr

namespace Body

def maxLocals : Nat := 256

def maxCaptures : Nat := 256

/-- The name of the receiver, which takes slot zero of a method. -/
def receiverName : BodyKind → String
  | .method | .initializer => "this"
  | .script | .function => ""

def new (kind : BodyKind) (name : String) : Body :=
  { kind, name, locals := [⟨receiverName kind, some 0, false⟩] }

/-! ## Local variables -/

def Local.answersTo (l : Local) (name : String) : Bool :=
  l.name == name && l.depth.isSome

/-- The slot of the innermost initialized local of that name. -/
def slot? (name : String) : List Local → Option Nat
  | [] => none
  | l :: locals => if Local.answersTo l name then some locals.length else slot? name locals

/-- The same, and the locals with that one marked as captured. -/
def captureSlot? (name : String) : List Local → Option (Nat × List Local)
  | [] => none
  | l :: locals =>
    if Local.answersTo l name then some (locals.length, { l with captured := true } :: locals)
    else (captureSlot? name locals).map fun (slot, locals) => (slot, l :: locals)

def hasUninitialized (b : Body) (name : String) : Bool :=
  b.locals.any fun l => l.name == name && l.depth.isNone

/-- Whether the innermost scope already has a local of that name. -/
def isDeclared (b : Body) (name : String) : Bool :=
  (b.locals.takeWhile fun l => l.depth.all (b.depth ≤ ·)).any (·.name == name)

def addLocal? (b : Body) (name : String) : Option Body :=
  if b.locals.length < maxLocals then some { b with locals := ⟨name, none, false⟩ :: b.locals }
  else none

/-- Gives the newest local the depth of the open scope. -/
def markInitialized (b : Body) : Body :=
  match b.locals with
  | [] => b
  | l :: locals => { b with locals := { l with depth := some b.depth } :: locals }

/-- The locals that the end of the innermost scope removes, and those it keeps. -/
def leaveScope (b : Body) : List Local × Body :=
  let depth := b.depth - 1
  let (gone, kept) := b.locals.span fun l => l.depth.all (depth < ·)
  (gone, { b with depth, locals := kept })

/-! ## Captured variables -/

/-- The place of a capture in the list, where it is added if need be. -/
def addCapture (b : Body) (c : Capture) : Option Nat × Body :=
  match b.captures.idxOf? c with
  | some i => (some i, b)
  | none =>
    if b.captures.size < maxCaptures then
      (some b.captures.size, { b with captures := b.captures.push c })
    else (none, b)

/-- What a name means in the functions around a body. -/
inductive Resolution where
  /-- No function around it has such a variable. -/
  | absent
  | found (index : Nat)
  /-- A list of captures has no room for it. -/
  | full
deriving DecidableEq, Repr

/-- Adds a capture and says what has become of it. -/
def link (b : Body) (c : Capture) : Resolution × Body :=
  match b.addCapture c with
  | (some i, b) => (.found i, b)
  | (none, b) => (.full, b)

/-- Resolves `name` in the bodies around `b`, the nearest first, and makes the captures that lead
from `b` to the variable found. -/
def resolve (name : String) (b : Body) : List Body → Resolution × Body × List Body
  | [] => (.absent, b, [])
  | parent :: outer =>
    match captureSlot? name parent.locals with
    | some (slot, locals) =>
      let (r, b) := b.link ⟨slot, true⟩
      (r, b, { parent with locals } :: outer)
    | none =>
      match resolve name parent outer with
      | (.found i, parent, outer) =>
        let (r, b) := b.link ⟨i, false⟩
        (r, b, parent :: outer)
      | (r, parent, outer) => (r, b, parent :: outer)

/-! ## Captured locals -/

/-- Marking a local as captured finds the slot that a plain look-up finds. -/
theorem map_fst_captureSlot? (name : String) (locals : List Local) :
    (captureSlot? name locals).map (·.1) = slot? name locals := by
  induction locals with
  | nil => rfl
  | cons l locals ih =>
    rw [captureSlot?, slot?, ← ih]
    split
    · rfl
    · cases captureSlot? name locals <;> rfl

theorem slot?_lt_length {name : String} {locals : List Local} {slot : Nat}
    (h : slot? name locals = some slot) : slot < locals.length := by
  induction locals with
  | nil => cases h
  | cons l locals ih =>
    rw [slot?] at h
    split at h
    · obtain rfl := Option.some.inj h
      exact Nat.lt_succ_self _
    · exact Nat.lt_succ_of_lt (ih h)

theorem length_of_captureSlot? {name : String} {locals marked : List Local} {slot : Nat}
    (h : captureSlot? name locals = some (slot, marked)) : marked.length = locals.length := by
  induction locals generalizing marked with
  | nil => cases h
  | cons l locals ih =>
    rw [captureSlot?] at h
    split at h
    · obtain ⟨rfl, rfl⟩ := Prod.mk.inj (Option.some.inj h)
      rfl
    · obtain ⟨⟨slot', locals'⟩, h', heq⟩ := Option.map_eq_some_iff.mp h
      obtain ⟨rfl, rfl⟩ := Prod.mk.inj heq
      exact congrArg (· + 1) (ih h')

end Body

end LoxMachine
