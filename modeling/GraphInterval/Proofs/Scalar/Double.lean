import GraphInterval.Proofs.Scalar.Lawful
import GraphInterval.Scalar.Double
import Mathlib.Algebra.Order.Field.Basic
import Mathlib.Order.Compare
import Mathlib.Tactic.NormNum

/-!
# The numbers that doubles stand for

A double that is a number stands for an integer multiple of the smallest
positive double.  Its mantissa is as large as its exponent allows, so the
exponents decide a comparison before the mantissas do, and doubles compare
like the numbers they stand for.  So doubles obey the laws of comparisons.
-/

namespace GraphInterval

namespace Double

open Float.Model (Format UnpackedFloat)
open Float.Model.UnpackedFloat (Sign)

/-! ### Unpacked values -/

/-- The sign, the mantissa and the exponent of a double. -/
def unpacked (x : Double) : UnpackedFloat := x.toFloat.toModel.unpack

/-- The multiple of the smallest positive double. -/
def units : UnpackedFloat → ℤ
  | .finite s m e _ => s.apply (m * 2 ^ (e + 1074).toNat)
  | .infinity _ | .zero _ | .notANumber => 0

/-- The exponent is the least one unless the leading bit of the mantissa is set. -/
def Regular : UnpackedFloat → Prop
  | .finite _ m e _ => m < 2 ^ 53 ∧ -1074 ≤ e ∧ (2 ^ 52 ≤ m ∨ e = -1074)
  | .infinity _ | .zero _ | .notANumber => True

theorem regular_unpack (b : BitVec Format.binary64.numBits) :
    Regular (UnpackedFloat.unpack Format.binary64 b) := by
  have hbias : (Format.binary64.exponentBias : ℤ) = 1023 := by decide
  have hmantissa : (UnpackedFloat.unpackMantissa b).toNat < 2 ^ 52 := BitVec.isLt _
  unfold UnpackedFloat.unpack
  dsimp only
  refine iteInduction (fun _ => iteInduction (fun _ => trivial) fun _ => trivial)
    fun _ => iteInduction (fun hexponent => ?_) fun hexponent => ?_
  · by_cases hnone : UnpackedFloat.unpackMantissa b = 0#_
    · rw [dif_pos hnone]
      trivial
    rw [dif_neg hnone, hexponent]
    exact ⟨by omega, by decide, .inr (by decide)⟩
  · have hpos : (UnpackedFloat.unpackExponent b).toNat ≠ 0 := fun h =>
      hexponent (BitVec.eq_of_toNat_eq h)
    have hleading : (1#1 ++ UnpackedFloat.unpackMantissa b).toNat =
        2 ^ 52 + (UnpackedFloat.unpackMantissa b).toNat := by
      rw [BitVec.toNat_append, ← Nat.shiftLeft_add_eq_or_of_lt hmantissa]
      rfl
    refine ⟨by omega, by omega, .inl (by omega)⟩

theorem regular_unpacked (x : Double) : Regular x.unpacked := regular_unpack _

/-! ### Comparisons -/

/-- A larger exponent outweighs the mantissa. -/
theorem mul_pow_lt {m k i j : ℕ} (hm : m < 2 ^ 53) (hk : 2 ^ 52 ≤ k) (hij : i < j) :
    m * 2 ^ i < k * 2 ^ j := by
  calc m * 2 ^ i < 2 ^ 53 * 2 ^ i := Nat.mul_lt_mul_of_pos_right hm (Nat.two_pow_pos i)
    _ = 2 ^ 52 * 2 ^ (i + 1) := by rw [Nat.pow_succ 2 i]; omega
    _ ≤ k * 2 ^ j := Nat.mul_le_mul hk (Nat.pow_le_pow_right (by decide) hij)

/-- Exponents are compared before mantissas. -/
theorem compare_mul_pow {m k : ℕ} {e f : ℤ} (hm : m < 2 ^ 53) (he : -1074 ≤ e)
    (hme : 2 ^ 52 ≤ m ∨ e = -1074) (hk : k < 2 ^ 53) (hf : -1074 ≤ f)
    (hkf : 2 ^ 52 ≤ k ∨ f = -1074) :
    (compare e f).then (compare m k) =
      compare (m * 2 ^ (e + 1074).toNat : ℤ) (k * 2 ^ (f + 1074).toNat) := by
  have hcast : ∀ {p q i j : ℕ}, p * 2 ^ i < q * 2 ^ j → (p * 2 ^ i : ℤ) < q * 2 ^ j :=
    fun h => by exact_mod_cast h
  obtain hlt | rfl | hgt := lt_trichotomy e f
  · rw [compare_lt_iff_lt.mpr hlt, Ordering.lt_then, eq_comm, compare_lt_iff_lt]
    exact hcast (mul_pow_lt hm (hkf.resolve_right (by omega)) (by omega))
  · rw [compare_eq_iff_eq.mpr rfl, Ordering.eq_then, ← cmp_eq_compare, ← cmp_eq_compare,
      cmp_mul_pos_right (by positivity), Nat.strictMono_cast.cmp_map_eq]
  · rw [compare_gt_iff_gt.mpr hgt, Ordering.gt_then, eq_comm, compare_gt_iff_gt]
    exact hcast (mul_pow_lt hk (hme.resolve_right (by omega)) (by omega))

theorem units_positive {m : ℕ} (e : ℤ) (hm : 0 < m) : 0 < units (.finite .positive m e hm) := by
  change (0 : ℤ) < m * 2 ^ (e + 1074).toNat
  positivity

theorem units_negative {m : ℕ} (e : ℤ) (hm : 0 < m) :
    units (.finite .negative m e hm) = -units (.finite .positive m e hm) := rfl

theorem compare_eq {u v : UnpackedFloat} (hu : Regular u) (hv : Regular v)
    (hu' : u.isFinite = true) (hv' : v.isFinite = true) :
    u.compare v = some (compare (units u) (units v)) := by
  have hzero : ∀ s, units (.zero s) = 0 := fun _ => rfl
  cases u with
  | infinity s => cases hu'
  | notANumber => cases hu'
  | zero s =>
      cases v with
      | infinity t => cases hv'
      | notANumber => cases hv'
      | zero t => rfl
      | finite t k f hk =>
          have hpos := units_positive f hk
          cases t with
          | negative =>
              refine congrArg some (compare_gt_iff_gt.mpr ?_).symm
              rw [hzero, units_negative]
              omega
          | positive => exact congrArg some (compare_lt_iff_lt.mpr hpos).symm
  | finite s m e hm =>
      have hpos := units_positive e hm
      cases v with
      | infinity t => cases hv'
      | notANumber => cases hv'
      | zero t =>
          cases s with
          | negative =>
              refine congrArg some (compare_lt_iff_lt.mpr ?_).symm
              rw [hzero, units_negative]
              omega
          | positive => exact congrArg some (compare_gt_iff_gt.mpr hpos).symm
      | finite t k f hk =>
          have hpos' := units_positive f hk
          have hcompare := compare_mul_pow hu.1 hu.2.1 hu.2.2 hv.1 hv.2.1 hv.2.2
          cases s <;> cases t
          · have hanti : StrictAnti fun z : ℤ => -z := fun _ _ => neg_lt_neg
            change some ((compare e f).then (compare m k)).swap = _
            rw [hcompare, units_negative, units_negative, ← cmp_eq_compare, ← cmp_eq_compare,
              cmp_swap]
            exact congrArg some (hanti.cmp_map_eq _ _).symm
          · refine congrArg some (compare_lt_iff_lt.mpr ?_).symm
            rw [units_negative]
            omega
          · refine congrArg some (compare_gt_iff_gt.mpr ?_).symm
            rw [units_negative]
            omega
          · exact congrArg some hcompare

/-! ### Exact values -/

/-- Neither infinite nor undefined. -/
def isFinite (x : Double) : Bool := x.unpacked.isFinite

/-- The number that a finite double stands for. -/
def value (x : Double) : ℚ := units x.unpacked / 2 ^ 1074

/-- A double as an exact value. -/
def toExact (x : Double) : Exact :=
  match x.unpacked with
  | .infinity .positive => .top
  | .infinity .negative => .bottom
  | .finite .. | .zero _ | .notANumber => .number x.value

variable {x y : Double}

theorem compare_of_isFinite (hx : x.isFinite = true) (hy : y.isFinite = true) :
    x.unpacked.compare y.unpacked = some (compare x.value y.value) := by
  have hmono : StrictMono fun z : ℤ => (z : ℚ) / 2 ^ 1074 := fun _ _ h =>
    div_lt_div_of_pos_right (Int.cast_lt.mpr h) (by positivity)
  rw [compare_eq (regular_unpacked x) (regular_unpacked y) hx hy, ← cmp_eq_compare,
    ← cmp_eq_compare]
  exact congrArg some (hmono.cmp_map_eq _ _).symm

theorem toExact_of_isFinite (hx : x.isFinite = true) : x.toExact = .number x.value := by
  unfold isFinite at hx
  unfold toExact
  cases hu : x.unpacked with
  | infinity s =>
      rw [hu] at hx
      cases hx
  | notANumber | zero s | finite s m e hm => rfl

/-- Doubles that are numbers compare like their exact values. -/
theorem compare_toExact (hx : x.unpacked.isNaN = false) (hy : y.unpacked.isNaN = false) :
    (x.unpacked.compare y.unpacked = some .lt ∧ x.toExact < y.toExact) ∨
      (x.unpacked.compare y.unpacked = some .eq ∧ x.toExact = y.toExact) ∨
      (x.unpacked.compare y.unpacked = some .gt ∧ y.toExact < x.toExact) := by
  by_cases hfinite : x.isFinite = true ∧ y.isFinite = true
  · obtain ⟨hfx, hfy⟩ := hfinite
    rw [compare_of_isFinite hfx hfy, toExact_of_isFinite hfx, toExact_of_isFinite hfy,
      Exact.number_lt_number, Exact.number_lt_number]
    obtain hlt | heq | hgt := lt_trichotomy x.value y.value
    · exact .inl ⟨congrArg some (compare_lt_iff_lt.mpr hlt), hlt⟩
    · exact .inr (.inl ⟨congrArg some (compare_eq_iff_eq.mpr heq), congrArg _ heq⟩)
    · exact .inr (.inr ⟨congrArg some (compare_gt_iff_gt.mpr hgt), hgt⟩)
  · -- one of the two is infinite
    unfold isFinite at hfinite
    unfold toExact
    cases hu : x.unpacked with
    | notANumber =>
        rw [hu] at hx
        cases hx
    | infinity s =>
        cases hv : y.unpacked with
        | notANumber =>
            rw [hv] at hy
            cases hy
        | infinity t =>
            cases s <;> cases t
            · exact .inr (.inl ⟨rfl, rfl⟩)
            · exact .inl ⟨rfl, rfl⟩
            · exact .inr (.inr ⟨rfl, rfl⟩)
            · exact .inr (.inl ⟨rfl, rfl⟩)
        | zero t | finite t k f hk =>
            cases s
            · exact .inl ⟨rfl, rfl⟩
            · exact .inr (.inr ⟨rfl, rfl⟩)
    | zero s | finite s m e hm =>
        cases hv : y.unpacked with
        | notANumber =>
            rw [hv] at hy
            cases hy
        | infinity t =>
            cases t
            · exact .inr (.inr ⟨rfl, rfl⟩)
            · exact .inl ⟨rfl, rfl⟩
        | zero t | finite t k f hk =>
            rw [hu, hv] at hfinite
            exact absurd ⟨rfl, rfl⟩ hfinite

theorem lt_iff_compare : x < y ↔ x.unpacked.compare y.unpacked = some .lt := by
  change decide (x.toFloat.toModel < y.toFloat.toModel) = true ↔ _
  rw [decide_eq_true_iff]
  exact beq_iff_eq

theorem le_iff_compare :
    x ≤ y ↔ ∃ order, x.unpacked.compare y.unpacked = some order ∧ order.isLE = true := by
  change decide (x.toFloat.toModel ≤ y.toFloat.toModel) = true ↔ _
  rw [decide_eq_true_iff]
  exact Option.any_eq_true _ _

theorem beq_iff_compare : (x == y) = true ↔ x.unpacked.compare y.unpacked = some .eq := by
  change (x.unpacked.compare y.unpacked == some .eq) = true ↔ _
  exact beq_iff_eq

/-- Comparisons of doubles that are numbers are those of their exact values. -/
theorem comparisons_toExact (hx : x.unpacked.isNaN = false) (hy : y.unpacked.isNaN = false) :
    (x < y ↔ x.toExact < y.toExact) ∧ (x ≤ y ↔ x.toExact ≤ y.toExact) ∧
      ((x == y) = true ↔ (x.toExact == y.toExact) = true) := by
  rw [lt_iff_compare, le_iff_compare, beq_iff_compare, Exact.le_iff_place, Exact.lt_iff_place,
    Exact.beq_iff]
  obtain ⟨heq, h⟩ | ⟨heq, h⟩ | ⟨heq, h⟩ := compare_toExact hx hy
  · rw [Exact.lt_iff_place] at h
    have hne : x.toExact ≠ y.toExact := fun h' => h.ne (congrArg _ h')
    simp [heq, h, h.le, hne]
  · simp [heq, h]
  · rw [Exact.lt_iff_place] at h
    have hne : x.toExact ≠ y.toExact := fun h' => h.ne' (congrArg _ h')
    simp [heq, h, h.not_gt, hne]

/-- Only numbers compare. -/
theorem isNaN_of_compare {order : Ordering} (h : x.unpacked.compare y.unpacked = some order) :
    x.unpacked.isNaN = false ∧ y.unpacked.isNaN = false := by
  cases hx : x.unpacked <;> cases hy : y.unpacked <;> rw [hx, hy] at h <;>
    first | exact ⟨rfl, rfl⟩ | cases h

theorem isNaN_of_le (h : x ≤ y) : x.unpacked.isNaN = false ∧ y.unpacked.isNaN = false := by
  obtain ⟨order, hcompare, -⟩ := le_iff_compare.mp h
  exact isNaN_of_compare hcompare

theorem le_iff_toExact (hx : x.unpacked.isNaN = false) (hy : y.unpacked.isNaN = false) :
    x ≤ y ↔ x.toExact ≤ y.toExact := (comparisons_toExact hx hy).2.1

theorem le_self_iff : x ≤ x ↔ x.unpacked.isNaN = false :=
  ⟨fun h => (isNaN_of_le h).1, fun h => (le_iff_toExact h h).mpr (Exact.le_refl _)⟩

theorem le_self_of_isFinite (hx : x.isFinite = true) : x ≤ x := by
  rw [le_self_iff]
  unfold isFinite at hx
  cases hu : x.unpacked with
  | finite _ _ _ _ | zero _ => rfl
  | infinity _ | notANumber =>
      rw [hu] at hx
      cases hx

end Double

open Double in
instance : LawfulScalar Double where
  le_trans {x y z} hxy hyz := by
    obtain ⟨hx, hy⟩ := isNaN_of_le hxy
    obtain ⟨-, hz⟩ := isNaN_of_le hyz
    rw [le_iff_toExact hx hy] at hxy
    rw [le_iff_toExact hy hz] at hyz
    rw [le_iff_toExact hx hz]
    exact Exact.le_trans hxy hyz
  le_total {x y} hx hy := by
    rw [le_self_iff] at hx hy
    rw [le_iff_toExact hx hy, le_iff_toExact hy hx]
    exact Exact.le_total _ _
  lt_iff {x y} := by
    by_cases h : x.unpacked.isNaN = false ∧ y.unpacked.isNaN = false
    · obtain ⟨hx, hy⟩ := h
      rw [(comparisons_toExact hx hy).1, le_iff_toExact hx hy, le_iff_toExact hy hx]
      exact LawfulRanked.lt_iff
    · exact iff_of_false (fun hlt => h (isNaN_of_compare (lt_iff_compare.mp hlt)))
        fun hle => h (isNaN_of_le hle.1)
  beq_iff {x y} := by
    by_cases h : x.unpacked.isNaN = false ∧ y.unpacked.isNaN = false
    · obtain ⟨hx, hy⟩ := h
      rw [(comparisons_toExact hx hy).2.2, le_iff_toExact hx hy, le_iff_toExact hy hx]
      exact LawfulRanked.beq_iff
    · exact iff_of_false (fun hbeq => h (isNaN_of_compare (beq_iff_compare.mp hbeq)))
        fun hle => h (isNaN_of_le hle.1)
  top_le_top := le_self_iff.mpr rfl
  bottom_le_bottom := le_self_iff.mpr rfl
  zero_le_zero := le_self_iff.mpr rfl

end GraphInterval
