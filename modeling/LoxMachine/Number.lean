import LoxMachine.Decimal.Shortest

/-!
# Numbers

The numbers of the language are those of double precision. They are kept as bit patterns, so that
two numbers are the same exactly when their bits are: zero and minus zero differ, and every
pattern that is not a number equals itself. Arithmetic and comparison are those of the processor;
`near`, the equality of the language, lets numbers differ by less than a billionth.
-/

namespace LoxMachine

structure Number where
  bits : UInt64
deriving DecidableEq, Repr, Inhabited

namespace Number

def ofFloat (x : Float) : Number :=
  ⟨x.toBits⟩

def toFloat (n : Number) : Float :=
  Float.ofBits n.bits

def ofNat (n : Nat) : Number :=
  ofFloat (Float.ofNat n)

/-! ## Arithmetic -/

def add (a b : Number) : Number := ofFloat (a.toFloat + b.toFloat)

def sub (a b : Number) : Number := ofFloat (a.toFloat - b.toFloat)

def mul (a b : Number) : Number := ofFloat (a.toFloat * b.toFloat)

def div (a b : Number) : Number := ofFloat (a.toFloat / b.toFloat)

def neg (a : Number) : Number := ofFloat (-a.toFloat)

def lt (a b : Number) : Bool := a.toFloat < b.toFloat

/-- How far apart two equal numbers may be. -/
def tolerance : Float := 1e-9

def near (a b : Number) : Bool :=
  (a.toFloat - b.toFloat).abs < tolerance

/-! ## The parts of a number -/

def isNegative (n : Number) : Bool :=
  n.bits >>> 63 == 1

/-- The eleven bits of the exponent. -/
def exponentBits (n : Number) : Nat :=
  (n.bits >>> 52).toNat % 2048

/-- The fifty-two bits behind the leading one. -/
def fraction (n : Number) : Nat :=
  n.bits.toNat % Nat.pow 2 52

def isFinite (n : Number) : Bool :=
  n.exponentBits != 2047

/-- The decimal written for a finite number without its sign. -/
def magnitude (n : Number) : Decimal :=
  if n.exponentBits = 0 then
    if n.fraction = 0 then ⟨0, 0⟩
    else (Decimal.Interval.around n.fraction (-1074) false).shortest
  else
    let least := n.fraction = 0 && n.exponentBits != 1
    (Decimal.Interval.around (Nat.pow 2 52 + n.fraction) (n.exponentBits - 1075) least).shortest

/-! ## Texts -/

/-- The text of a number, given how its magnitude is written. Nothing tells one pattern that is not
a number from another. -/
def write (n : Number) (style : Decimal → List Char) : String :=
  if !n.isFinite && n.fraction != 0 then "NaN"
  else
    let sign := if n.isNegative then ['-'] else []
    String.ofList (sign ++ if n.isFinite then style n.magnitude else "inf".toList)

/-- The shortest digits that read back, never with an exponent. -/
protected def toString (n : Number) : String :=
  n.write Decimal.positional

instance : ToString Number := ⟨Number.toString⟩

/-- A whole number shows its point, and one below 1e-4 or from 1e16 on has an exponent. -/
def debugNotation (d : Decimal) : List Char :=
  if d.digits ≠ 0 ∧ (d.point < -3 ∨ 16 < d.point) then d.scientific
  else if 0 ≤ d.exponent then d.positional ++ ['.', '0']
  else d.positional

/-- The text of a number as part of a longer description. -/
def debug (n : Number) : String :=
  n.write debugNotation

/-- The number nearest to a literal, if the text is one. -/
def ofLiteral? (text : String) : Option Number :=
  (Decimal.read? text.toList).map fun d =>
    ofFloat (Float.ofScientific d.digits (d.exponent < 0) d.exponent.natAbs)

end Number

end LoxMachine
