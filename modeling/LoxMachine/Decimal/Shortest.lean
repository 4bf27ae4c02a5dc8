import LoxMachine.Decimal.Basic

/-!
# The shortest decimal that reads back

A binary number stands for every real number that rounds to it. `Interval.shortest` gives the
decimal with the fewest digits among these and, of those, the one nearest to the binary number; of
two equally near ones the larger. All arithmetic is exact.

If a grid of decimals (the multiples of a power of ten) meets the interval, then one of the two
points of the grid around the number lies in it. So it is enough to try these two on each grid, from
the coarsest on.
-/

namespace LoxMachine.Decimal

/-- The real numbers that round to the binary number `value / unit`, between `low / unit` and
`high / unit`; the ends belong to it if it is `closed`. -/
structure Interval where
  low : Nat
  value : Nat
  high : Nat
  unit : Nat
  closed : Bool
deriving DecidableEq, Repr

namespace Interval

/-- The numbers that round to `mantissa * 2 ^ exponent`. The gap to the neighbour below is half the
gap above if the mantissa is the least of its length. -/
def around (mantissa : Nat) (exponent : Int) (least : Bool) : Interval :=
  let scale := Nat.pow 2 (exponent - 2).toNat
  { low := (4 * mantissa - if least then 1 else 2) * scale
    value := 4 * mantissa * scale
    high := (4 * mantissa + 2) * scale
    unit := Nat.pow 2 (2 - exponent).toNat
    closed := mantissa % 2 = 0 }

/-- The same interval with everything divided by `10 ^ k`. -/
def shift (i : Interval) (k : Int) : Interval :=
  let up := Nat.pow 10 (-k).toNat
  { i with
    low := i.low * up, value := i.value * up, high := i.high * up
    unit := i.unit * Nat.pow 10 k.toNat }

def contains (i : Interval) (n : Nat) : Bool :=
  let x := n * i.unit
  if i.closed then i.low ≤ x && x ≤ i.high else i.low < x && x < i.high

/-- A whole number in the interval, the nearest to its value. -/
def nearest? (i : Interval) : Option Nat :=
  let below := i.value / i.unit
  let above := below + 1
  match i.contains below, i.contains above with
  | true, true => some (if 2 * (i.value % i.unit) < i.unit then below else above)
  | true, false => some below
  | false, true => some above
  | false, false => none

/-- The least power of ten is far below every binary number of double precision. -/
def finest : Nat := 360

/-- The power of ten of the first digit. -/
def leading (i : Interval) : Int :=
  (Nat.toDigits 10 (i.value * Nat.pow 10 finest / i.unit)).length - 1 - (finest : Int)

end Interval

/-- Moves zeros at the end of the digits into the exponent. -/
def trim : Nat → Decimal → Decimal
  | 0, d => d
  | n + 1, d => if d.digits % 10 = 0 then trim n ⟨d.digits / 10, d.exponent + 1⟩ else d

/-- Seventeen digits tell any two numbers of double precision apart. -/
def mostDigits : Nat := 17

def Interval.shortest (i : Interval) : Decimal :=
  let leading := i.leading
  let found := (List.range mostDigits).findSome? fun (n : Nat) =>
    let k := leading - n
    (i.shift k).nearest?.map (⟨·, k⟩)
  trim mostDigits (found.getD ⟨0, 0⟩)

end LoxMachine.Decimal
