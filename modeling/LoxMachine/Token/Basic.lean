import LoxMachine.Text.Cluster

/-!
# Tokens

A token is a kind, the clusters it is made of and the line it is reported on. Text that is no token
becomes a token too, of a kind that says what is wrong, so that a reader of tokens can report it at
the right moment. A cluster stands for an ASCII character only if it consists of that character
alone: a letter with an accent is no letter.
-/

namespace LoxMachine

open Text (Cluster)

/-- Why a piece of text is not a token of the language. -/
inductive ScanError where
  | unexpectedCharacter
  | unterminatedString
deriving DecidableEq, Repr

def ScanError.message : ScanError → String
  | .unexpectedCharacter => "Unexpected character."
  | .unterminatedString => "Unterminated string."

inductive TokenKind where
  | leftParen | rightParen | leftBrace | rightBrace
  | comma | dot | minus | plus | semicolon | slash | asterisk
  | bang | bangEqual | equal | equalEqual
  | greater | greaterEqual | less | lessEqual
  | identifier | string | number
  | kwAnd | kwAssert | kwClass | kwElse | kwFalse | kwFor | kwFun | kwIf | kwNil | kwOr
  | kwPrint | kwReturn | kwSuper | kwThis | kwTrue | kwVar | kwWhile
  | error (cause : ScanError)
  | eof
deriving DecidableEq, Repr

structure Token where
  kind : TokenKind
  lexeme : List Cluster
  line : Nat
deriving DecidableEq, Repr

namespace Token

/-- The text of a token. -/
def text (t : Token) : String :=
  String.ofList t.lexeme.flatten

/-- What ends every sequence of tokens. -/
def eof (line : Nat) : Token :=
  ⟨.eof, [], line⟩

end Token

/-! ## Classes of clusters -/

namespace Text.Cluster

def isNewline (g : Cluster) : Bool :=
  g == ['\n'] || g == ['\r'] || g == ['\r', '\n']

def isBlank (g : Cluster) : Bool :=
  g == [' '] || g == ['\t']

def isDigit : Cluster → Bool
  | [c] => c.isDigit
  | _ => false

/-- A letter, of the ASCII ones, or the underscore. -/
def isLetter : Cluster → Bool
  | [c] => c.isAlpha || c == '_'
  | _ => false

def isWordPart (g : Cluster) : Bool :=
  isLetter g || isDigit g

end Text.Cluster

/-! ## The vocabulary -/

namespace TokenKind

/-- Tokens of one cluster that begin no longer token. -/
def single? : Cluster → Option TokenKind
  | ['('] => some .leftParen
  | [')'] => some .rightParen
  | ['\x7b'] => some .leftBrace
  | ['\x7d'] => some .rightBrace
  | [';'] => some .semicolon
  | [','] => some .comma
  | ['.'] => some .dot
  | ['-'] => some .minus
  | ['+'] => some .plus
  | ['/'] => some .slash
  | ['*'] => some .asterisk
  | _ => none

/-- Tokens of one cluster that an equals sign extends: the kind alone and the kind extended. -/
def extensible? : Cluster → Option (TokenKind × TokenKind)
  | ['!'] => some (.bang, .bangEqual)
  | ['='] => some (.equal, .equalEqual)
  | ['<'] => some (.less, .lessEqual)
  | ['>'] => some (.greater, .greaterEqual)
  | _ => none

def keywords : List (String × TokenKind) :=
  [("and", .kwAnd), ("assert", .kwAssert), ("class", .kwClass), ("else", .kwElse),
   ("false", .kwFalse), ("for", .kwFor), ("fun", .kwFun), ("if", .kwIf), ("nil", .kwNil),
   ("or", .kwOr), ("print", .kwPrint), ("return", .kwReturn), ("super", .kwSuper),
   ("this", .kwThis), ("true", .kwTrue), ("var", .kwVar), ("while", .kwWhile)]

/-- The kind of a word: a keyword only if the whole word is one. -/
def ofWord (word : List Cluster) : TokenKind :=
  (keywords.lookup (String.ofList word.flatten)).getD .identifier

end TokenKind

end LoxMachine
