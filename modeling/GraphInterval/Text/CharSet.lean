/-!
# Sets of characters

A property of characters is given by the ranges of code points that have it.
-/

namespace GraphInterval

/-- A set of characters by closed ranges of code points, ascending and apart. -/
structure CharSet where
  ranges : List (Nat × Nat)
  deriving Repr, Inhabited

namespace CharSet

def contains (s : CharSet) (c : Char) : Bool :=
  s.ranges.any fun (first, last) => decide (first ≤ c.toNat) && decide (c.toNat ≤ last)

end CharSet

end GraphInterval
