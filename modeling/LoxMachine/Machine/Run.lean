import LoxMachine.Chunk.Listing
import LoxMachine.Machine.Step

/-!
# Running

A run starts with one frame for a function without arguments (`enter`) and goes on, instruction by
instruction, until that frame returns or a fault stops it. `run` takes a budget of instructions; a
run that has used it up can be continued. However a run ends, the stack, the frames and the list of
open cells are empty afterwards; globals, store and console stay.
-/

namespace LoxMachine

/-! ## What a fault leaves behind -/

/-- A call that was active when a run failed. -/
structure TraceEntry where
  line : Nat
  /-- Empty for a script. -/
  function : String
deriving DecidableEq, Repr

def TraceEntry.text (t : TraceEntry) : String :=
  "[line " ++ toString t.line ++ "] in " ++
    if t.function = "" then "script" else t.function ++ "()"

/-- A fault and the calls it happened in, the innermost first. -/
structure Failure where
  fault : Fault
  trace : List TraceEntry
deriving DecidableEq, Repr

def Failure.message (f : Failure) : String :=
  f.trace.foldl (fun text t => text ++ "\n" ++ t.text) f.fault.message

inductive Outcome where
  | finished
  | failed (f : Failure)
  /-- The budget was used up first. -/
  | unfinished
deriving DecidableEq, Repr

namespace Machine

/-! ## A new machine -/

/-- A function of the host that tells the time. -/
def clock : NativeFunction :=
  fun time _ => .number time

def defineNative (m : Machine) (name : String) (f : NativeFunction) : Machine :=
  let (native, store) := m.store.newNative name f
  { m with store, globals := m.globals.insert name (.native native) }

/-- A machine with nothing but the clock defined. -/
def new (console : Console) : Machine :=
  ({ console } : Machine).defineNative "clock" clock

/-! ## Traces and logs -/

/-- The line of the instruction that a frame is executing. -/
def Frame.line (s : Store) (f : Frame) : Nat :=
  ((s.chunk f.closure.function).line? (f.ip - 1)).getD 0

def trace (m : Machine) : List TraceEntry :=
  m.frames.map fun f => ⟨Frame.line m.store f, f.closure.function.name⟩

def record (m : Machine) (level : LogLevel) (text : String) : Machine :=
  { m with console := m.console.record level text }

/-- Logs the stack and the instruction that comes next. -/
def traceStep (m : Machine) : Machine :=
  match m.frames with
  | [] => m
  | f :: _ =>
    if m.console.keeps .trace then
      (m.record .trace ("Stack: " ++ Value.debugRow m.stack)).record .trace
        ((m.store.chunk f.closure.function).instructionAt f.ip)
    else m

/-! ## Runs -/

def enter (f : Function) : Action Unit := do
  let closure ← make (·.newClosure f #[])
  push (.closure closure)
  call closure 0

/-- Empties what belongs to a run. Cells that are still open stay so. -/
def reset (m : Machine) : Machine :=
  { m with stack := #[], frames := [], openCells := [] }

/-- Gives up a run. -/
def abort (m : Machine) (fault : Fault) : Outcome × Machine :=
  (.failed ⟨fault, m.trace⟩,
    (m.record .debug ("Runtime error: " ++ fault.message)).reset)

/-- Executes at most `budget` instructions of a run that has been entered. -/
def run : Nat → Machine → Outcome × Machine
  | 0, m => (.unfinished, m)
  | budget + 1, m =>
    match step m.traceStep with
    | .error fault m => m.abort fault
    | .ok _ m => if m.frames.isEmpty then (.finished, m) else run budget m

/-- Runs a function without arguments. -/
def interpret (m : Machine) (budget : Nat) (f : Function) : Outcome × Machine :=
  match enter f m with
  | .error fault m => m.abort fault
  | .ok _ m => run budget m

end Machine

end LoxMachine
