import LoxMachine.Unicode.BreakClass
import LoxMachine.Unicode.Printable

/-!
# Quoted text

Text inside a description stands between double quotes. Quotes, backslashes and the usual controls
are escaped by a backslash; other characters that do not print, and marks that would attach to what
stands before them, are written by their code point.
-/

namespace LoxMachine.Text

/-- A character by its code point. -/
def codePointEscape (c : Char) : List Char :=
  '\\' :: 'u' :: '\x7b' :: (Nat.toDigits 16 c.toNat ++ ['\x7d'])

def escape (c : Char) : List Char :=
  match c with
  | '\x00' => ['\\', '0']
  | '\t' => ['\\', 't']
  | '\n' => ['\\', 'n']
  | '\r' => ['\\', 'r']
  | '"' => ['\\', '"']
  | '\\' => ['\\', '\\']
  | c =>
    if Unicode.extendsPrevious c then codePointEscape c
    else if Unicode.isPrintable c then [c]
    else codePointEscape c

def quote (s : String) : String :=
  String.ofList ('"' :: (s.toList.flatMap escape ++ ['"']))

end LoxMachine.Text
