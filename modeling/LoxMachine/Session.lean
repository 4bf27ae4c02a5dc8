import LoxMachine.Machine.Run
import LoxMachine.Program.Basic

/-!
# Sessions

A session is a machine that is given one text after the other. Each is compiled and, if it has no
errors, run; globals stay from one text to the next, also after a failure. The log tells what
happens: the text, the code of each function compiled before the first error, the errors, and how
the run ends.
-/

namespace LoxMachine

/-- What has become of a text. -/
inductive Ending where
  | completed
  | rejected (errors : List SourceError)
  | failed (f : Failure)
  /-- The run has used up its budget and can be continued. -/
  | unfinished
deriving DecidableEq, Repr

namespace Ending

def ofOutcome : Outcome → Ending
  | .finished => .completed
  | .failed f => .failed f
  | .unfinished => .unfinished

/-- The message for a text that went wrong. -/
def message? : Ending → Option String
  | .rejected errors => some (SourceError.report errors)
  | .failed f => some f.message
  | .completed | .unfinished => none

/-- The status a process ends with. -/
def exitCode : Ending → Nat
  | .rejected _ => 65
  | .failed _ => 70
  | .completed | .unfinished => 0

end Ending

namespace Machine

/-! ## Compiling -/

/-- Logs a finished function. -/
def recordListing (m : Machine) (title : String) (code : Chunk) : Machine :=
  if m.console.keeps .trace then m.record .trace (code.listing title) else m

def recordRoutines (m : Machine) (routines : Array Routine) : Machine :=
  routines.foldl (fun m r => m.recordListing r.function.title r.code) m

def recordRejection (m : Machine) (r : Rejection) : Machine :=
  (r.errors.foldl (fun m e => m.record .debug e.message) (m.recordRoutines r.sound)).record .debug
    ("Compilation failed with " ++ toString r.errors.length ++ " error(s)")

/-- Puts the code of a program into the store. -/
def load (m : Machine) (p : Program) : Machine :=
  { m with store := { m.store with chunks := m.store.chunks ++ p.routines.map (·.code) } }

/-- Compiles a text for this machine and loads it. -/
def prepare (m : Machine) (source : String) : Except (List SourceError) Function × Machine :=
  let m := m.record .trace ("Got input string: " ++ source)
  match Program.compile m.store.chunks.size source with
  | .error r => (.error r.errors, m.recordRejection r)
  | .ok p =>
    let m := (m.recordRoutines p.nested).recordListing "<script>" p.main.code
    (.ok p.main.function, (m.record .debug "Compiled script, running").load p)

/-! ## Running -/

/-- Compiles a text and executes at most `budget` instructions of it. -/
def runSource (m : Machine) (budget : Nat) (source : String) : Ending × Machine :=
  match m.prepare source with
  | (.error errors, m) => (.rejected errors, m)
  | (.ok f, m) =>
    let (outcome, m) := m.interpret budget f
    (.ofOutcome outcome, m)

/-- Goes on with an unfinished run. -/
def resume (m : Machine) (budget : Nat) : Ending × Machine :=
  let (outcome, m) := m.run budget
  (.ofOutcome outcome, m)

end Machine

end LoxMachine
