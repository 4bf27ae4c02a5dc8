import LoxMachine.CommandLine

/-!
# The program

`lox -f FILE` runs a file; `lox` alone reads lines and runs them one by one.
-/

namespace LoxMachine.Host

/-- How many instructions a run executes before its output is shown and its clock set anew. -/
def slice : Nat := 100000

def write (out : IO.FS.Stream) (text : String) : IO Unit := do
  unless text.isEmpty do
    out.putStr text
    out.flush

/-- The machine with the clock of the host. -/
def onTime (m : Machine) : IO Machine := do
  let now ← IO.monoNanosNow
  return { m with time := .ofFloat (Float.ofScientific now true 9) }

/-- Shows what a machine has printed. -/
def present (m : Machine) : IO Machine := do
  write (← IO.getStdout) m.console.output
  return { m with console := m.console.cleared }

/-- Goes on with a run to its end. -/
partial def finish (ending : Ending) (m : Machine) : IO (Ending × Machine) := do
  let m ← present m
  if ending = .unfinished then
    let (ending, m) := (← onTime m).resume slice
    finish ending m
  else return (ending, m)

/-- Runs a text and says on the error stream what went wrong. -/
def runText (m : Machine) (source : String) : IO (Ending × Machine) := do
  let (ending, m) := (← onTime m).runSource slice source
  let (ending, m) ← finish ending m
  write (← IO.getStderr) (CommandLine.complaint ending)
  return (ending, m)

def runFile (path : String) : IO UInt32 := do
  let content ← (some <$> IO.FS.readBinFile path) <|> pure none
  match content.bind (CommandLine.decode? ·.toList) with
  | some source =>
    let (ending, _) ← runText (.new {}) source
    return ending.exitCode.toUInt32
  | none =>
    let report := CommandLine.unreadable path
    write (← IO.getStderr) report.stderr
    return report.exitCode.toUInt32

/-- Reads bytes up to and with the next line feed. -/
partial def readLine (input : IO.FS.Stream) (bytes : List UInt8) : IO (List UInt8) := do
  let next ← input.read 1
  match next.toList with
  | [] => return bytes.reverse
  | b :: _ => if b = 10 then return (b :: bytes).reverse else readLine input (b :: bytes)

partial def converse (m : Machine) : IO UInt32 := do
  write (← IO.getStdout) CommandLine.prompt
  match CommandLine.lines (← readLine (← IO.getStdin) []) with
  | [] => return 0
  | line :: _ =>
    match CommandLine.Reply.toLine line with
    | .stop => return 0
    | .giveUp =>
      write (← IO.getStderr) CommandLine.invalidText
      return 1
    | .run source =>
      let (_, m) ← runText m source
      converse m

/-- Runs the program with these arguments and answers its status. -/
def run (arguments : List String) : IO UInt32 := do
  match CommandLine.Options.parse? {} arguments with
  | none =>
    write (← IO.getStderr) "Usage: lox [-f FILE] [-v]\n"
    return 2
  | some options =>
    match options.file with
    | some path => runFile path
    | none => converse (.new {})

end LoxMachine.Host

def main (arguments : List String) : IO UInt32 :=
  LoxMachine.Host.run arguments
