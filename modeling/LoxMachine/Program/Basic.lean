import LoxMachine.Program.Statement
import LoxMachine.Token.Scan

/-!
# Programs

A program is a compiled script: the function of the script itself and the functions inside it, in
the order in which their bodies end. `Program.ofTokens` compiles a sequence of tokens, and
`Program.compile` a text. A text with errors has no program; it is rejected with all its errors.
-/

namespace LoxMachine

structure Program where
  /-- The functions inside the script. -/
  nested : Array Routine
  main : Routine
deriving DecidableEq, Repr

/-- What is left of a text that has errors. -/
structure Rejection where
  errors : List SourceError
  /-- The functions that were compiled before the first error. -/
  sound : Array Routine
deriving DecidableEq, Repr

namespace Program

open Builder

/-- A builder that has read nothing yet. -/
def start (firstIndex : Nat) (tokens : List Token) : Builder :=
  { previous := .eof 1, current := .eof 1, upcoming := tokens, body := .new .script "", firstIndex }

/-- Compiles everything up to the end of the text. -/
def script (bound : Nat) : Build Unit := do
  advance
  repeatWhile (do return !(← accept .eof)) (Statement.declaration (bound + 1)) bound
  emitReturn

/-- What has become of the text that a builder has read. -/
def conclude (s : Builder) : Except Rejection Program :=
  if s.errors.isEmpty then .ok ⟨s.finished, s.routine⟩
  else .error ⟨s.errors.toList, s.finished.extract 0 s.sound⟩

/-- Compiles tokens, the end token last. The functions are numbered from `firstIndex` on. -/
def ofTokens (firstIndex : Nat) (tokens : List Token) : Except Rejection Program :=
  conclude (script tokens.length (start firstIndex tokens)).2

def compile (firstIndex : Nat) (source : String) : Except Rejection Program :=
  ofTokens firstIndex (Scanner.ofString source).tokens

/-- All functions, the script last. -/
def routines (p : Program) : Array Routine :=
  p.nested.push p.main

end Program

end LoxMachine
