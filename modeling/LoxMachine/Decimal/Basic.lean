/-!
# Decimal numbers

A decimal number is written as digits times a power of ten. This module writes one out: in
positional notation, which never has an exponent, or with one digit before the point and an
exponent. `read?` reads the literals of the language: digits, and a point between digits.
-/

namespace LoxMachine

/-- The number `digits * 10 ^ exponent`. -/
structure Decimal where
  digits : Nat
  exponent : Int
deriving DecidableEq, Repr

namespace Decimal

/-- How many places before the point the first digit starts; it is zero for 0.5 and negative for
0.05. -/
def point (d : Decimal) : Int :=
  (Nat.toDigits 10 d.digits).length + d.exponent

def zeros (n : Int) : List Char :=
  List.replicate n.toNat '0'

/-! ## Notations -/

/-- Digits with a point where it belongs, and no exponent. -/
def positional (d : Decimal) : List Char :=
  let ds := Nat.toDigits 10 d.digits
  if d.point ≤ 0 then '0' :: '.' :: (zeros (-d.point) ++ ds)
  else if 0 ≤ d.exponent then ds ++ zeros d.exponent
  else ds.take d.point.toNat ++ '.' :: ds.drop d.point.toNat

/-- One digit, the others behind a point if there are any, and an exponent. -/
def scientific (d : Decimal) : List Char :=
  let places := (toString (d.point - 1)).toList
  match Nat.toDigits 10 d.digits with
  | [] => []
  | [c] => c :: 'e' :: places
  | c :: ds => c :: '.' :: (ds ++ 'e' :: places)

/-! ## Literals -/

/-- The number that the digits `cs` add to `n`, or nothing if one of them is no digit. -/
def readDigits? (n : Nat) : List Char → Option Nat
  | [] => some n
  | c :: cs => if c.isDigit then readDigits? (10 * n + (c.toNat - '0'.toNat)) cs else none

/-- Reads digits, or digits, a point and digits. -/
def read? (text : List Char) : Option Decimal :=
  let whole := text.takeWhile (· != '.')
  if whole = [] then none
  else
    match text.dropWhile (· != '.') with
    | [] => (readDigits? 0 whole).map (⟨·, 0⟩)
    | _ :: fraction =>
      if fraction = [] then none
      else (readDigits? 0 (whole ++ fraction)).map (⟨·, -fraction.length⟩)

end Decimal

end LoxMachine
