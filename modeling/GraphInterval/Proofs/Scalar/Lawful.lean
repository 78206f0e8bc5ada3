import GraphInterval.Scalar.Exact

/-!
# The laws of comparisons

A value that compares with itself has a place in one order of all such values,
and the comparisons tell the places apart.  A value that does not compare with
itself, such as one that is not a number, compares with no value at all.  This
much holds with floating point as well as with exact numbers.
-/

namespace GraphInterval

/-- The comparisons are those of an order on the values that compare with themselves. -/
class LawfulRanked (α : Type) [Ranked α] : Prop where
  le_trans {a b c : α} : a ≤ b → b ≤ c → a ≤ c
  le_total {a b : α} : a ≤ a → b ≤ b → a ≤ b ∨ b ≤ a
  lt_iff {a b : α} : a < b ↔ a ≤ b ∧ ¬ b ≤ a
  beq_iff {a b : α} : (a == b) = true ↔ a ≤ b ∧ b ≤ a
  top_le_top : (Ranked.top : α) ≤ Ranked.top

/-- An arithmetic whose constants compare with themselves. -/
class LawfulScalar (α : Type) [Scalar α] : Prop extends LawfulRanked α where
  bottom_le_bottom : (Scalar.bottom : α) ≤ Scalar.bottom
  zero_le_zero : (Scalar.ofInt 0 : α) ≤ Scalar.ofInt 0

namespace Ranked

variable {α : Type} [Ranked α] [LawfulRanked α] {a b c : α}

theorem le_trans (hab : a ≤ b) (hbc : b ≤ c) : a ≤ c := LawfulRanked.le_trans hab hbc

theorem le_of_lt (h : a < b) : a ≤ b := (LawfulRanked.lt_iff.mp h).1

theorem lt_irrefl (a : α) : ¬ a < a := fun h =>
  (LawfulRanked.lt_iff.mp h).2 (le_of_lt h)

theorem le_of_not_lt (ha : a ≤ a) (hb : b ≤ b) (h : ¬ a < b) : b ≤ a := by
  by_contra hba
  exact h (LawfulRanked.lt_iff.mpr ⟨(LawfulRanked.le_total ha hb).resolve_right hba, hba⟩)

theorem lt_of_not_le (ha : a ≤ a) (hb : b ≤ b) (h : ¬ a ≤ b) : b < a :=
  LawfulRanked.lt_iff.mpr ⟨(LawfulRanked.le_total ha hb).resolve_left h, h⟩

theorem lt_of_lt_of_le (hab : a < b) (hbc : b ≤ c) : a < c := by
  obtain ⟨hle, hnot⟩ := LawfulRanked.lt_iff.mp hab
  exact LawfulRanked.lt_iff.mpr ⟨le_trans hle hbc, fun hca => hnot (le_trans hbc hca)⟩

end Ranked

/-- The larger of two values is above both, unless the second one cannot be compared. -/
theorem Scalar.larger_cases {α : Type} [Scalar α] [LawfulScalar α] {a : α} (ha : a ≤ a) (b : α) :
    (Scalar.larger a b = a ∧ (b ≤ b → b ≤ a)) ∨ (Scalar.larger a b = b ∧ b ≤ b ∧ a ≤ b) := by
  rw [Scalar.larger]
  by_cases hlt : b < a
  · rw [if_pos hlt]
    exact .inl ⟨rfl, fun _ => Ranked.le_of_lt hlt⟩
  · rw [if_neg hlt]
    by_cases hself : (b == b) = true
    · have hb : b ≤ b := (LawfulRanked.beq_iff.mp hself).1
      rw [if_pos hself]
      exact .inr ⟨rfl, hb, Ranked.le_of_not_lt hb ha hlt⟩
    · rw [if_neg hself]
      exact .inl ⟨rfl, fun hb => absurd (LawfulRanked.beq_iff.mpr ⟨hb, hb⟩) hself⟩

theorem Exact.le_antisymm {a b : Exact} (hab : a ≤ b) (hba : b ≤ a) : a = b := by
  rw [le_iff_place] at hab hba
  have hplace : a.place = b.place := hab.antisymm hba
  cases a <;> cases b <;> simp_all [place]

instance : LawfulScalar Exact where
  le_trans := Exact.le_trans
  le_total _ _ := Exact.le_total _ _
  lt_iff {a b} := by
    rw [Exact.lt_iff_place, Exact.le_iff_place, Exact.le_iff_place]
    exact lt_iff_le_not_ge
  beq_iff {a b} := by
    rw [Exact.beq_iff]
    constructor
    · rintro rfl
      exact ⟨Exact.le_refl a, Exact.le_refl a⟩
    · exact fun h => Exact.le_antisymm h.1 h.2
  top_le_top := Exact.le_refl _
  bottom_le_bottom := Exact.le_refl _
  zero_le_zero := Exact.le_refl _

end GraphInterval
