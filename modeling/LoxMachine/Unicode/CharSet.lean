/-!
# Sets of characters

A set of characters is written as the ascending list of code points at which membership changes:
the first is in the set, the second is the first one after it that is not, and so on. A code point
is a member iff an odd number of boundaries lie at or below it, which a binary search counts.
-/

namespace LoxMachine.Unicode

structure CharSet where
  boundaries : Array Nat
deriving Inhabited

namespace CharSet

/-- The number of boundaries at or below `n`, given that it lies between `lo` and `hi`. -/
def rank (s : CharSet) (n lo hi : Nat) : Nat :=
  if lo < hi then
    let mid := (lo + hi) / 2
    if s.boundaries.getD mid 0 ≤ n then s.rank n (mid + 1) hi else s.rank n lo mid
  else lo
termination_by hi - lo

def contains (s : CharSet) (n : Nat) : Bool :=
  s.rank n 0 s.boundaries.size % 2 == 1

end CharSet

end LoxMachine.Unicode
