/-!
# The console

What a machine says to the outside: the text that scripts print and, apart from it, a log of records
with levels. Records below the chosen level are not kept. Text goes nowhere if the console is
broken; that is logged and has no other effect.
-/

namespace LoxMachine

inductive LogLevel where
  | error | warn | info | debug | trace
deriving DecidableEq, Repr

/-- Greater for what is less important. -/
def LogLevel.rank (l : LogLevel) : Nat :=
  l.ctorIdx

structure LogRecord where
  level : LogLevel
  text : String
deriving DecidableEq, Repr

structure Console where
  broken : Bool := false
  /-- Nothing is logged without a level. -/
  level : Option LogLevel := none
  output : String := ""
  log : Array LogRecord := #[]
deriving Repr, Inhabited

namespace Console

def keeps (c : Console) (level : LogLevel) : Bool :=
  c.level.any (level.rank ≤ ·.rank)

def record (c : Console) (level : LogLevel) (text : String) : Console :=
  if c.keeps level then { c with log := c.log.push ⟨level, text⟩ } else c

def printLine (c : Console) (text : String) : Console :=
  if c.broken then c.record .error "Error writing output value: writer broken"
  else { c with output := c.output ++ text ++ "\n" }

/-- The console with nothing said yet. -/
def cleared (c : Console) : Console :=
  { c with output := "", log := #[] }

end Console

end LoxMachine
