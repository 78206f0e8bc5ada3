import GraphInterval.Scalar.Basic
import Mathlib.Data.Rat.Floor

/-!
# Exact numbers as a scalar type

The rational numbers with a value below and a value above them all.  Sums and
differences of numbers are exact.  An operation with one infinite argument is
infinite like that argument; of two infinite arguments the first one decides.
The results that floating point leaves undefined are never needed.
-/

namespace GraphInterval

inductive Exact where
  | bottom
  | number (value : ℚ)
  | top
  deriving DecidableEq, Inhabited

namespace Exact

protected def lt : Exact → Exact → Bool
  | bottom, bottom => false
  | bottom, _ => true
  | number _, bottom => false
  | number p, number q => decide (p < q)
  | number _, top => true
  | top, _ => false

protected def neg : Exact → Exact
  | bottom => top
  | number q => number (-q)
  | top => bottom

/-- An operation on numbers, with infinite arguments passed on. -/
def lift₂ (f : ℚ → ℚ → ℚ) : Exact → Exact → Exact
  | number p, number q => number (f p q)
  | number _, infinite => infinite
  | infinite, _ => infinite

/-- Rounds a number to an integer. -/
def round (f : ℚ → ℤ) : Exact → Exact
  | number q => number (f q)
  | infinite => infinite

/-- An integer in the range of 32 bits. -/
def clampInt32 (z : ℤ) : ℤ := max (-2 ^ 31) (min z (2 ^ 31 - 1))

def toInt32 : Exact → ℤ
  | bottom => -2 ^ 31
  | number q => clampInt32 (if q < 0 then ⌈q⌉ else ⌊q⌋)
  | top => 2 ^ 31 - 1

end Exact

instance : Scalar Exact where
  lt x y := x.lt y = true
  le x y := y.lt x = false
  beq x y := decide (x = y)
  decideLT x y := inferInstanceAs (Decidable (x.lt y = true))
  decideLE x y := inferInstanceAs (Decidable (y.lt x = false))
  top := .top
  add := Exact.lift₂ (· + ·)
  sub x y := Exact.lift₂ (· + ·) x y.neg
  neg := Exact.neg
  mul := Exact.lift₂ (· * ·)
  div := Exact.lift₂ (· / ·)
  ofScientific mantissa negative exponent :=
    .number (OfScientific.ofScientific mantissa negative exponent)
  ofInt z := .number z
  bottom := .bottom
  greatest := .number (2 ^ 1024 - 2 ^ 971)
  precedes x y := !y.lt x
  floor := Exact.round Int.floor
  ceil := Exact.round Int.ceil
  toInt32 := Exact.toInt32

namespace Exact

variable {p q : ℚ} {x y z : Exact}

@[simp]
theorem number_lt_number : number p < number q ↔ p < q := decide_eq_true_iff

@[simp]
theorem number_le_number : number p ≤ number q ↔ p ≤ q := by
  change decide (q < p) = false ↔ _
  rw [decide_eq_false_iff_not, not_lt]

@[simp]
theorem bottom_lt_number : bottom < number q := rfl

@[simp]
theorem bottom_lt_top : bottom < top := rfl

@[simp]
theorem number_lt_top : number q < top := rfl

@[simp]
theorem not_number_lt_bottom : ¬ number q < bottom := Bool.false_ne_true

@[simp]
theorem not_top_lt : ¬ top < x := by
  cases x <;> exact Bool.false_ne_true

@[simp]
theorem not_lt_bottom : ¬ x < bottom := by
  cases x <;> exact Bool.false_ne_true

theorem le_iff_not_lt : x ≤ y ↔ ¬ y < x := Bool.eq_false_iff

@[simp]
theorem beq_iff : (x == y) = true ↔ x = y := decide_eq_true_iff

@[simp]
theorem number_add_number : number p + number q = number (p + q) := rfl

@[simp]
theorem number_sub_number : number p - number q = number (p - q) := by
  change number (p + -q) = _
  rw [sub_eq_add_neg]

@[simp]
theorem number_mul_number : number p * number q = number (p * q) := rfl

@[simp]
theorem number_div_number : number p / number q = number (p / q) := rfl

@[simp]
theorem number_add_top : number p + top = top := rfl

@[simp]
theorem top_sub_number : top - number p = top := rfl

@[simp]
theorem ofInt_eq (n : ℤ) : (Scalar.ofInt n : Exact) = number n := rfl

@[simp]
theorem top_eq : (Ranked.top : Exact) = top := rfl

@[simp]
theorem bottom_eq : (Scalar.bottom : Exact) = bottom := rfl

/-- The sum of numbers is their sum as rational numbers. -/
theorem sum_number (values : List ℚ) :
    Scalar.sum (values.map number) = number values.sum := by
  have hfold : ∀ q : ℚ, (values.map number).foldl (· + ·) (number q) = number (q + values.sum) := by
    induction values with
    | nil =>
        intro q
        rw [List.sum_nil, add_zero]
        rfl
    | cons p values ih =>
        intro q
        rw [List.map_cons, List.foldl_cons, number_add_number, ih, List.sum_cons, add_assoc]
  exact (hfold 0).trans (by rw [zero_add])

theorem precedes_iff : Scalar.precedes x y = true ↔ x ≤ y := by
  change (!y.lt x) = true ↔ y.lt x = false
  rw [Bool.not_eq_true']

/-- The place of a value in the order of the extended rational numbers. -/
def place : Exact → WithBot (WithTop ℚ)
  | bottom => ⊥
  | number q => ((q : WithTop ℚ) : WithBot (WithTop ℚ))
  | top => ((⊤ : WithTop ℚ) : WithBot (WithTop ℚ))

theorem lt_iff_place : x < y ↔ x.place < y.place := by
  cases x <;> cases y <;> simp [place]
  case number.top q => exact WithBot.coe_lt_coe.mpr (WithTop.coe_lt_top q)

theorem le_iff_place : x ≤ y ↔ x.place ≤ y.place := by
  rw [le_iff_not_lt, lt_iff_place, not_lt]

theorem le_refl (x : Exact) : x ≤ x := le_iff_place.mpr le_rfl

theorem le_trans (hxy : x ≤ y) (hyz : y ≤ z) : x ≤ z :=
  le_iff_place.mpr ((le_iff_place.mp hxy).trans (le_iff_place.mp hyz))

instance : Trans (LE.le (α := Exact)) LE.le LE.le := ⟨le_trans⟩

theorem le_total (x y : Exact) : x ≤ y ∨ y ≤ x := by
  rw [le_iff_place, le_iff_place]
  exact LinearOrder.le_total _ _

theorem le_of_lt (h : x < y) : x ≤ y := le_iff_place.mpr (lt_iff_place.mp h).le

theorem lt_of_lt_of_le (hxy : x < y) (hyz : y ≤ z) : x < z :=
  lt_iff_place.mpr ((lt_iff_place.mp hxy).trans_le (le_iff_place.mp hyz))

/-! ### The larger and the smaller of two values -/

theorem larger_eq (x y : Exact) : Scalar.larger x y = if y < x then x else y := by
  simp [Scalar.larger]

theorem smaller_eq (x y : Exact) : Scalar.smaller x y = if x < y then x else y := by
  simp [Scalar.smaller]

theorem larger_eq_or (x y : Exact) : Scalar.larger x y = x ∨ Scalar.larger x y = y := by
  rw [larger_eq]
  exact ite_eq_or_eq _ _ _

theorem le_larger_left (x y : Exact) : x ≤ Scalar.larger x y := by
  rw [larger_eq]
  split
  next => exact le_refl x
  next h => exact le_iff_not_lt.mpr h

theorem le_larger_right (x y : Exact) : y ≤ Scalar.larger x y := by
  rw [larger_eq]
  split
  next h => exact le_of_lt h
  next => exact le_refl y

theorem smaller_eq_or (x y : Exact) : Scalar.smaller x y = x ∨ Scalar.smaller x y = y := by
  rw [smaller_eq]
  exact ite_eq_or_eq _ _ _

theorem smaller_le_left (x y : Exact) : Scalar.smaller x y ≤ x := by
  rw [smaller_eq]
  split
  next => exact le_refl x
  next h => exact le_iff_not_lt.mpr h

theorem smaller_le_right (x y : Exact) : Scalar.smaller x y ≤ y := by
  rw [smaller_eq]
  split
  next h => exact le_of_lt h
  next => exact le_refl y

end Exact

end GraphInterval
