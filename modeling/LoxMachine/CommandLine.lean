import LoxMachine.Session

/-!
# The command line

The program runs a file, or reads lines and runs each of them in one session. What it writes and the
status it ends with are computed here from the bytes it reads.
-/

namespace LoxMachine.CommandLine

/-! ## Options -/

structure Options where
  file : Option String := none
  verbosity : Nat := 0
deriving DecidableEq, Repr

/-- Reads the arguments of the program: a file and any number of flags for a longer log. -/
def Options.parse? (o : Options) : List String → Option Options
  | [] => some o
  | "-f" :: path :: rest | "--file" :: path :: rest => { o with file := some path }.parse? rest
  | "-v" :: rest | "--verbose" :: rest => { o with verbosity := o.verbosity + 1 }.parse? rest
  | _ => none

/-! ## Texts -/

/-- What a process writes, and the status it ends with. -/
structure Report where
  stdout : String := ""
  stderr : String := ""
  exitCode : Nat := 0
deriving DecidableEq, Repr

def decode? (bytes : List UInt8) : Option String :=
  String.fromUTF8? ⟨bytes.toArray⟩

/-- A message without blanks at its end, on a line of its own. -/
def errorLine (message : String) : String :=
  (message.dropEndWhile Char.isWhitespace).toString ++ "\n"

/-- What is written about a text that went wrong. -/
def complaint (e : Ending) : String :=
  e.message?.elim "" errorLine

def ioErrorCode : Nat := 74

def unreadable (path : String) : Report :=
  { stderr := "Could not read file \"" ++ path ++ "\".\n", exitCode := ioErrorCode }

/-! ## Running a file -/

/-- Runs a file with this content on a new machine. A file that is no text is not readable. -/
def runFile (m : Machine) (budget : Nat) (path : String) (content : List UInt8) : Report :=
  match decode? content with
  | none => unreadable path
  | some source =>
    let (ending, m) := m.runSource budget source
    { stdout := m.console.output, stderr := complaint ending, exitCode := ending.exitCode }

/-! ## Reading lines -/

/-- The lines of an input being cut, the last first, and the open line in reverse. -/
structure LineCutter where
  found : List (List UInt8) := []
  openBytes : List UInt8 := []

/-- A line ends at a line feed, which is dropped with a carriage return before it. -/
def LineCutter.push (k : LineCutter) (b : UInt8) : LineCutter :=
  if b = 10 then
    let line := if k.openBytes.head? = some 13 then k.openBytes.tail else k.openBytes
    { found := line.reverse :: k.found }
  else { k with openBytes := b :: k.openBytes }

/-- The lines of an input; what follows the last line feed is a line if there is anything. -/
def lines (input : List UInt8) : List (List UInt8) :=
  let k := input.foldl LineCutter.push {}
  (if k.openBytes = [] then k.found else k.openBytes.reverse :: k.found).reverse

def prompt : String := "> "

/-- What the line reader does with a line. -/
inductive Reply where
  | stop
  /-- The line is no text. -/
  | giveUp
  | run (source : String)
deriving DecidableEq, Repr

def Reply.toLine (line : List UInt8) : Reply :=
  match decode? line with
  | none => .giveUp
  | some "" => .stop
  | some source => .run source

def invalidText : String := "Error: stream did not contain valid UTF-8\n"

/-- Runs line after line on one machine, behind what has been written so far. -/
def converse (budget : Nat) : Machine → Report → List (List UInt8) → Report
  | _, r, [] => r
  | m, r, line :: rest =>
    match Reply.toLine line with
    | .stop => r
    | .giveUp => { r with stderr := r.stderr ++ invalidText, exitCode := 1 }
    | .run source =>
      let (ending, m) := m.runSource budget source
      let r :=
        { r with
          stdout := r.stdout ++ m.console.output ++ prompt
          stderr := r.stderr ++ complaint ending }
      converse budget { m with console := m.console.cleared } r rest

/-- Reads lines until an empty one. -/
def readLines (m : Machine) (budget : Nat) (input : List UInt8) : Report :=
  converse budget m { stdout := prompt } (lines input)

end LoxMachine.CommandLine
