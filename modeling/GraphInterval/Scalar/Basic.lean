/-!
# Scalars

The costs and bounds of a tour are computed in one arithmetic at a time: with
binary floating point when the library runs, with exact numbers when it is
reasoned about.  A `Ranked` type has the comparisons of such an arithmetic and
a value above all others; a `Scalar` type has its operations as well.  No law
is assumed here, since floating point obeys few of them.
-/

namespace GraphInterval

/-- A type with order tests and a greatest value. -/
class Ranked (α : Type) extends LT α, LE α, BEq α where
  decideLT : DecidableLT α
  decideLE : DecidableLE α
  /-- The value above all others, `+∞`. -/
  top : α

instance Ranked.decidableLT {α : Type} [Ranked α] : DecidableLT α := Ranked.decideLT
instance Ranked.decidableLE {α : Type} [Ranked α] : DecidableLE α := Ranked.decideLE

/-- The arithmetic in which bounds are computed. -/
class Scalar (α : Type) extends Ranked α, Add α, Sub α, Neg α, Mul α, Div α, OfScientific α where
  ofInt : Int → α
  /-- The value below all others, `-∞`. -/
  bottom : α
  /-- The greatest finite value. -/
  greatest : α
  /-- The order by which edges are sorted; it is total even where `<` is not. -/
  precedes : α → α → Bool
  floor : α → α
  ceil : α → α
  /-- The nearest 32-bit integer towards zero; values out of range give the nearest bound. -/
  toInt32 : α → Int

namespace Scalar

variable {α : Type} [Scalar α]

/-- The larger of two values, the second one if they are equal.  A value that cannot be compared with
itself gives way to the other. -/
def larger (a b : α) : α := if b < a then a else if b == b then b else a

/-- The smaller of two values, the second one if they are equal.  A value that cannot be compared
with itself gives way to the other. -/
def smaller (a b : α) : α := if a < b then a else if b == b then b else a

/-- The distance from zero. -/
def magnitude (a : α) : α := if a < ofInt 0 then -a else a

/-- The sum of a list from its first value to its last. -/
def sum (values : List α) : α := values.foldl (· + ·) (ofInt 0)

end Scalar

end GraphInterval
