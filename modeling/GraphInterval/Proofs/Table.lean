import GraphInterval.Table
import Mathlib.Logic.Function.Basic

/-!
# Square tables

The tables of the one-tree finders have one row and one column for every node,
and keep that form under all their operations.  Inside of it a written entry
is the one that is read.
-/

namespace GraphInterval

namespace Table

variable {α : Type} {t u : Table α} {n a b i j : Nat} {v d : α}

/-- The table has `n` rows of `n` entries. -/
structure Square (n : Nat) (t : Table α) : Prop where
  size_eq : t.rows.size = n
  row_eq : ∀ i < n, (t.row i).size = n

theorem Square.covers (ht : t.Square n) (hi : i < n) (hj : j < n) : t.covers i j = true := by
  rw [Table.covers, decide_eq_true_iff, ht.row_eq i hi]
  exact hj

theorem row_put (t : Table α) (i j k : Nat) (v : α) :
    (t.put i j v).row k = if i = k then (t.row k).setIfInBounds j v else t.row k := by
  simp only [row, put, Array.getD_eq_getD_getElem?, Array.getElem?_modify]
  by_cases hik : i = k
  · subst hik
    cases hrow : t.rows[i]? <;> simp
  · simp [hik]

theorem Square.put (ht : t.Square n) (i j : Nat) (v : α) : (t.put i j v).Square n := by
  constructor
  · rw [Table.put, Array.size_modify]
    exact ht.size_eq
  · intro k hk
    rw [row_put]
    split
    · rw [Array.size_setIfInBounds]
      exact ht.row_eq k hk
    · exact ht.row_eq k hk

theorem entry_put (ht : t.Square n) (hi : i < n) (hj : j < n) (a b : Nat) :
    (t.put i j v).entry a b d = if a = i ∧ b = j then v else t.entry a b d := by
  rw [entry, row_put, entry]
  by_cases hai : i = a
  · subst hai
    have hrow : j < (t.row i).size := (ht.row_eq i hi).symm ▸ hj
    simp only [if_true, true_and, Array.getD_eq_getD_getElem?, Array.getElem?_setIfInBounds]
    by_cases hbj : b = j
    · simp [hbj, hrow]
    · simp [hbj, Ne.symm hbj]
  · rw [if_neg hai, if_neg fun h => hai h.1.symm]

theorem Square.putBoth (ht : t.Square n) (i j : Nat) (v : α) : (t.putBoth i j v).Square n :=
  (ht.put i j v).put j i v

theorem entry_putBoth (ht : t.Square n) (hi : i < n) (hj : j < n) (a b : Nat) :
    (t.putBoth i j v).entry a b d =
      if (a = i ∧ b = j) ∨ (a = j ∧ b = i) then v else t.entry a b d := by
  rw [Table.putBoth, entry_put (ht.put i j v) hj hi, entry_put ht hi hj]
  grind

theorem row_fill (t : Table α) (v : α) (i : Nat) :
    (t.fill v).row i = Array.replicate (t.row i).size v := by
  simp only [row, fill, Array.getD_eq_getD_getElem?, Array.getElem?_map]
  cases t.rows[i]? <;> simp

theorem Square.fill (ht : t.Square n) (v : α) : (t.fill v).Square n := by
  constructor
  · rw [Table.fill, Array.size_map]
    exact ht.size_eq
  · intro i hi
    rw [row_fill, Array.size_replicate]
    exact ht.row_eq i hi

theorem Square.fill_eq (ht : t.Square n) (v : α) : t.fill v = replicate n v := by
  have hsize := ht.size_eq
  rw [Table.fill, replicate]
  congr 1
  refine Array.ext (by rw [Array.size_map, Array.size_replicate, hsize]) fun i hi _ => ?_
  rw [Array.size_map, hsize] at hi
  have hrow := ht.row_eq i hi
  rw [row, Array.getD_eq_getD_getElem?, Array.getElem?_eq_getElem (hsize.symm ▸ hi)] at hrow
  rw [Array.getElem_map, Array.getElem_replicate]
  exact congrArg (Array.replicate · v) hrow

theorem square_replicate (n : Nat) (v : α) : (replicate n v).Square n := by
  constructor
  · simp [replicate]
  · intro i hi
    simp [replicate, row, hi]

theorem square_ofFn (n : Nat) (f : Nat → Nat → α) : (ofFn n f).Square n := by
  constructor
  · simp [ofFn]
  · intro i hi
    simp [ofFn, row, hi]

theorem entry_ofFn (f : Nat → Nat → α) (ha : a < n) (hb : b < n) :
    (ofFn n f).entry a b d = f a b := by
  simp [ofFn, entry, row, ha, hb]

theorem fits_iff : t.fits u = true ↔
    ∀ i, i < t.rows.size → i < u.rows.size → (t.row i).size = (u.row i).size := by
  rw [fits, Array.all_eq_true]
  simp only [row, Array.size_zip, Array.getElem_zip, beq_iff_eq, Nat.lt_min]
  constructor
  · intro h i hi hi'
    simpa [hi, hi'] using h i ⟨hi, hi'⟩
  · intro h i hi
    simpa [hi.1, hi.2] using h i hi.1 hi.2

theorem fits_of_square (ht : t.Square n) (hu : u.Square n) : t.fits u = true := by
  rw [fits_iff]
  intro i hi hi'
  rw [ht.row_eq i (ht.size_eq ▸ hi), hu.row_eq i (hu.size_eq ▸ hi')]

/-- Only the size of a square table matters for what fits. -/
theorem fits_iff_of_square (ht : t.Square n) (hu : u.Square n) (source : Table α) :
    t.fits source = true ↔ u.fits source = true := by
  rw [fits_iff, fits_iff, ht.size_eq, hu.size_eq]
  refine forall_congr' fun i => forall_congr' fun hi => ?_
  rw [ht.row_eq i hi, hu.row_eq i hi]

theorem row_overwrite (t u : Table α) (i : Nat) :
    (t.overwrite u).row i =
      if i < u.rows.size ∧ i < t.rows.size then u.row i else t.row i := by
  simp only [overwrite, row, Array.getD_eq_getD_getElem?, Array.take_eq_extract,
    Array.drop_eq_extract, Array.getElem?_append, Array.size_extract, Array.getElem?_extract]
  grind

theorem Square.overwrite (ht : t.Square n) (hfits : t.fits u = true) :
    (t.overwrite u).Square n := by
  have hsize := ht.size_eq
  constructor
  · simp [Table.overwrite]
    omega
  · intro i hi
    rw [row_overwrite]
    split
    next h => rw [← fits_iff.mp hfits i h.2 h.1, ht.row_eq i hi]
    next => exact ht.row_eq i hi

theorem overwrite_eq (ht : t.Square n) (hu : u.Square n) : t.overwrite u = u := by
  have hsize := ht.size_eq
  have hsize' := hu.size_eq
  simp only [overwrite, Array.take_eq_extract, Array.drop_eq_extract, hsize, hsize']
  rw [← hsize', Array.extract_size, Array.extract_empty_of_size_le_start (by omega),
    Array.append_empty]

end Table

end GraphInterval
