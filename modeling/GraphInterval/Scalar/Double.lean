import GraphInterval.Scalar.Basic

/-!
# Binary floating point as a scalar type

A value is given by the 64 bits of its binary interchange format, so that the
values that are not numbers keep their sign and their payload.  An operation
on such a value passes it on, the first one if there are two; an operation on
numbers without a result answers `undefined`.

Comparisons follow the numbers: `-0.0` equals `0.0`, and nothing compares with
a value that is not a number.  Sorting follows the total order of the bits, in
which every value has its own place.
-/

namespace GraphInterval

structure Double where
  bits : UInt64
  deriving Inhabited, Repr

namespace Double

/-- Every bit apart from the sign. -/
def magnitudeMask : UInt64 := 0x7fffffffffffffff

def infinity : Double := ⟨0x7ff0000000000000⟩

def negInfinity : Double := ⟨0xfff0000000000000⟩

/-- The largest finite value. -/
def greatest : Double := ⟨0x7fefffffffffffff⟩

/-- The value of an operation on numbers that has no result. -/
def undefined : Double := ⟨0xfff8000000000000⟩

/-- Whether a value is not a number. -/
def isNaN (x : Double) : Bool := decide (infinity.bits < x.bits &&& magnitudeMask)

/-- A value that is not a number in the form in which operations pass it on. -/
def quiet (x : Double) : Double := ⟨x.bits ||| 0x0008000000000000⟩

def toFloat (x : Double) : Float := Float.ofBits x.bits

def ofFloat (r : Float) : Double := if r.isNaN then undefined else ⟨r.toBits⟩

/-- An operation on one value. -/
def lift (f : Float → Float) (x : Double) : Double :=
  if x.isNaN then x.quiet else ofFloat (f x.toFloat)

/-- An operation on two values. -/
def lift₂ (f : Float → Float → Float) (x y : Double) : Double :=
  if x.isNaN then x.quiet
  else if y.isNaN then y.quiet
  else ofFloat (f x.toFloat y.toFloat)

/-- The value with the other sign. -/
def neg (x : Double) : Double := ⟨x.bits ^^^ 0x8000000000000000⟩

/-- The place of a value in the total order.  The bits of the values without a sign ascend with the
values, those of the values with a sign descend. -/
def rank (x : Double) : Int :=
  if x.bits.toNat < 0x8000000000000000 then x.bits.toNat
  else 0x7fffffffffffffff - x.bits.toNat

theorem eq_of_bits_toNat {x y : Double} (h : x.bits.toNat = y.bits.toNat) : x = y := by
  cases x
  cases y
  exact congrArg Double.mk (UInt64.toNat_inj.mp h)

/-- Two values share a place only if they have the same bits. -/
theorem rank_injective {x y : Double} (h : x.rank = y.rank) : x = y := by
  apply eq_of_bits_toNat
  unfold rank at h
  split at h <;> split at h <;> omega

end Double

instance : Scalar Double where
  lt x y := x.toFloat < y.toFloat
  le x y := x.toFloat ≤ y.toFloat
  beq x y := x.toFloat == y.toFloat
  decideLT x y := inferInstanceAs (Decidable (x.toFloat < y.toFloat))
  decideLE x y := inferInstanceAs (Decidable (x.toFloat ≤ y.toFloat))
  top := Double.infinity
  add := Double.lift₂ (· + ·)
  sub := Double.lift₂ (· - ·)
  neg := Double.neg
  mul := Double.lift₂ (· * ·)
  div := Double.lift₂ (· / ·)
  ofScientific mantissa negative exponent :=
    Double.ofFloat (OfScientific.ofScientific mantissa negative exponent)
  ofInt n := Double.ofFloat (Float.ofInt n)
  bottom := Double.negInfinity
  greatest := Double.greatest
  precedes x y := decide (x.rank ≤ y.rank)
  floor := Double.lift Float.floor
  ceil := Double.lift Float.ceil
  toInt32 x := x.toFloat.toInt32.toInt

end GraphInterval
