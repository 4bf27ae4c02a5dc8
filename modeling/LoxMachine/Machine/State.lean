import LoxMachine.Store
import LoxMachine.Console
import LoxMachine.Machine.Fault

/-!
# The state of the machine

A machine has a stack of values, a frame for each active call, the globals, the store and a console.
A frame owns the stack from its `base` on: the callee or receiver, the arguments and everything the
call pushes. Captured variables that still live on the stack are listed in `openCells`, from the top
of the stack down, so that all closures that capture one slot share one cell.

The operations here are the alphabet of the instructions. Each is an action on the machine that may
end in a fault; after a fault the machine is as the action left it.
-/

namespace LoxMachine

open Std (HashMap)

structure Frame where
  closure : Closure
  /-- The offset of the next byte to read. -/
  ip : Nat
  /-- The slot of the callee or receiver. -/
  base : Nat
deriving DecidableEq, Repr

structure Machine where
  store : Store := {}
  globals : HashMap String Value := ∅
  stack : Array Value := #[]
  /-- The innermost call first. -/
  frames : List Frame := []
  /-- Slots with the cells of the variables in them, the greatest slot first. -/
  openCells : List (Nat × Nat) := []
  console : Console := {}
  /-- What the clock of the host shows, in seconds. -/
  time : Number := ⟨0⟩

abbrev Action := EStateM Fault Machine

namespace Machine

def maxFrames : Nat := 64

def maxStack : Nat := maxFrames * 256

/-! ## Faults -/

def fail {α : Type} (e : RuntimeError) : Action α :=
  throw (.runtime e)

def violate {α : Type} (v : Violation) : Action α :=
  throw (.violation v)

/-- The value, or a fault if there is none. -/
def orViolate {α : Type} (x : Option α) (v : Violation) : Action α :=
  match x with
  | some a => pure a
  | none => violate v

/-! ## The stack -/

def push (v : Value) : Action Unit := do
  if (← get).stack.size < maxStack then
    modify fun m => { m with stack := m.stack.push v }
  else fail .stackOverflow

def pop : Action Value := do
  match (← get).stack.back? with
  | some v =>
    modify fun m => { m with stack := m.stack.pop }
    return v
  | none => violate .stackUnderflow

/-- The slot that lies `distance` below the top of the stack. -/
def slotBelow (distance : Nat) : Action Nat := do
  let size := (← get).stack.size
  if distance < size then return size - 1 - distance else violate .stackUnderflow

def peek (distance : Nat) : Action Value := do
  let m ← get
  if distance < m.stack.size then
    orViolate m.stack[m.stack.size - 1 - distance]? .stackUnderflow
  else violate .stackUnderflow

def readSlot (slot : Nat) : Action Value := do
  orViolate (← get).stack[slot]? .stackUnderflow

def writeSlot (slot : Nat) (v : Value) : Action Unit := do
  if slot < (← get).stack.size then
    modify fun m => { m with stack := m.stack.setIfInBounds slot v }
  else violate .stackUnderflow

/-- Drops everything from `slot` on. -/
def truncate (slot : Nat) : Action Unit :=
  modify fun m => { m with stack := m.stack.shrink slot }

def popClass : Action Class := do
  match ← pop with
  | .cls c => return c
  | _ => violate .invalidTypes

/-! ## The code -/

def frame : Action Frame := do
  orViolate (← get).frames.head? .missingFrame

/-- Reads the byte at the instruction pointer and moves behind it. -/
def readByte : Action UInt8 := do
  let m ← get
  match m.frames with
  | [] => violate .missingFrame
  | f :: frames =>
    match (m.store.chunk f.closure.function).byte? f.ip with
    | none => violate (.invalidInstructionPointer f.ip)
    | some b =>
      set { m with frames := { f with ip := f.ip + 1 } :: frames }
      return b

def readDistance : Action Nat := do
  let high ← readByte
  let low ← readByte
  return Chunk.pair high low

def readConstant : Action Value := do
  let index ← readByte
  let f ← frame
  orViolate (((← get).store.chunk f.closure.function).constant? index) (.invalidConstant index)

def readName : Action String := do
  match ← readConstant with
  | .string s => return s
  | _ => violate .invalidTypes

/-- The stack slot of a local variable, which the next byte numbers. -/
def readLocal : Action Nat := do
  let slot ← readByte
  return (← frame).base + slot.toNat

/-- The cell of a captured variable, which the next byte numbers. -/
def readCell : Action Nat := do
  let index ← readByte
  orViolate (← frame).closure.cells[index.toNat]? (.invalidUpvalue index.toNat)

/-- Moves the instruction pointer. -/
def moveTo (ip : Nat) : Action Unit := do
  match (← get).frames with
  | [] => violate .missingFrame
  | f :: frames => modify fun m => { m with frames := { f with ip } :: frames }

/-! ## The store -/

/-- Runs an operation of the store that makes something. -/
def make {α : Type} (new : Store → α × Store) : Action α :=
  modifyGet fun m =>
    let (a, store) := new m.store
    (a, { m with store })

def changeStore (change : Store → Store) : Action Unit :=
  modify fun m => { m with store := change m.store }

/-! ## Captured variables -/

/-- Lists a cell under its slot, in order. -/
def insertCell (slot cell : Nat) : List (Nat × Nat) → List (Nat × Nat)
  | [] => [(slot, cell)]
  | (s, c) :: rest =>
    if slot < s then (s, c) :: insertCell slot cell rest else (slot, cell) :: (s, c) :: rest

theorem mem_insertCell {slot cell : Nat} {x : Nat × Nat} {cells : List (Nat × Nat)} :
    x ∈ insertCell slot cell cells ↔ x = (slot, cell) ∨ x ∈ cells := by
  induction cells with
  | nil => simp [insertCell]
  | cons c cells ih =>
    rw [insertCell]
    split
    · rw [List.mem_cons, ih, List.mem_cons]
      exact or_left_comm
    · exact List.mem_cons

/-- The cell of the variable in `slot`, which is made if there is none yet. -/
def capture (slot : Nat) : Action Nat := do
  match (← get).openCells.lookup slot with
  | some cell => return cell
  | none =>
    let cell ← make (·.newCell slot)
    modify fun m => { m with openCells := insertCell slot cell m.openCells }
    return cell

/-- Copies the values of captured variables into their cells; a slot beyond the stack has none. -/
def closeCells (stack : Array Value) (cells : List (Nat × Nat)) (s : Store) : Store :=
  cells.foldl (fun s (slot, cell) => (stack[slot]?).elim s (s.setCell cell)) s

/-- Detaches all captured variables from `slot` on from the stack. -/
def closeFrom (slot : Nat) : Action Unit := do
  let (above, below) := (← get).openCells.span (slot ≤ ·.1)
  modify fun m =>
    { m with openCells := below, store := closeCells m.stack above m.store }
  if above.any ((← get).stack.size ≤ ·.1) then violate .stackUnderflow

end Machine

end LoxMachine
