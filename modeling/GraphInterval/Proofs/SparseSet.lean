import GraphInterval.SparseSet
import Mathlib.Data.Finset.Card
import Mathlib.Data.List.Nodup

/-!
# The members of a sparse set

A sparse set is valid if its two arrays are inverse permutations of the
universe.  Every operation keeps a set valid, and on valid sets an operation
changes the membership of its own element only.  The enumeration of a valid
set lists every member once, so its size is the number of its members.
-/

namespace GraphInterval

namespace SparseSet

/-- The element at an index. -/
def elementAt (s : SparseSet) (i : Nat) : Nat := s.elements.getD i 0

/-- The index of an element. -/
def indexOf (s : SparseSet) (e : Nat) : Nat := s.positions.getD e 0

/-- The arrays are inverse permutations of the universe. -/
structure Valid (s : SparseSet) : Prop where
  size_positions : s.positions.size = s.capacity
  size_le : s.size ≤ s.capacity
  indexOf_lt : ∀ e < s.capacity, s.indexOf e < s.capacity
  elementAt_lt : ∀ i < s.capacity, s.elementAt i < s.capacity
  elementAt_indexOf : ∀ e < s.capacity, s.elementAt (s.indexOf e) = e
  indexOf_elementAt : ∀ i < s.capacity, s.indexOf (s.elementAt i) = i

theorem contains_iff {s : SparseSet} (hs : s.Valid) {e : Nat} :
    s.contains e = true ↔ e < s.capacity ∧ s.indexOf e < s.size := by
  simp [contains, indexOf, hs.size_positions]

theorem lt_capacity_of_contains {s : SparseSet} (hs : s.Valid) {e : Nat}
    (h : s.contains e = true) : e < s.capacity :=
  ((contains_iff hs).mp h).1

/-! ### Initial sets -/

theorem capacity_empty (n : Nat) : (empty n).capacity = n := by
  simp [empty, capacity]

theorem valid_of_range {n size : Nat} (h : size ≤ n) :
    Valid { elements := Array.range n, positions := Array.range n, size } := by
  constructor <;> simp [capacity, elementAt, indexOf]
  · exact h
  all_goals intro i hi; simp [hi]

theorem valid_empty (n : Nat) : (empty n).Valid :=
  valid_of_range (Nat.zero_le n)

theorem valid_full (n : Nat) : (full n).Valid :=
  valid_of_range (Nat.le_refl n)

@[simp]
theorem contains_empty (n e : Nat) : (empty n).contains e = false := by
  simp [contains, empty]

theorem contains_full (n e : Nat) : (full n).contains e = true ↔ e < n := by
  rw [contains_iff (valid_full n)]
  have hcap : (full n).capacity = n := by simp [full, empty, capacity]
  rw [hcap]
  constructor
  · exact fun h => h.1
  · intro h
    refine ⟨h, ?_⟩
    simp [full, empty, indexOf, h]

/-! ### Swapping two elements -/

@[simp]
theorem capacity_exchange (s : SparseSet) (i j : Nat) :
    (s.exchange i j).capacity = s.capacity := by
  simp [exchange, capacity]

@[simp]
theorem size_exchange (s : SparseSet) (i j : Nat) :
    (s.exchange i j).size = s.size := rfl

theorem elementAt_exchange {s : SparseSet} {i j : Nat} (hi : i < s.capacity)
    (hj : j < s.capacity) (k : Nat) :
    (s.exchange i j).elementAt k =
      if k = j then s.elementAt i else if k = i then s.elementAt j else s.elementAt k := by
  unfold capacity at hi hj
  simp only [exchange, elementAt, Array.getD_eq_getD_getElem?,
    Array.getElem?_setIfInBounds, Array.size_setIfInBounds]
  grind

theorem indexOf_exchange {s : SparseSet} (hs : s.Valid) {i j : Nat}
    (hi : i < s.capacity) (hj : j < s.capacity) (e : Nat) :
    (s.exchange i j).indexOf e =
      if e = s.elementAt i then j else if e = s.elementAt j then i else s.indexOf e := by
  have hsi : s.elementAt i < s.positions.size := hs.size_positions ▸ hs.elementAt_lt i hi
  have hsj : s.elementAt j < s.positions.size := hs.size_positions ▸ hs.elementAt_lt j hj
  simp only [elementAt] at hsi hsj ⊢
  simp only [exchange, indexOf, Array.getD_eq_getD_getElem?,
    Array.getElem?_setIfInBounds, Array.size_setIfInBounds] at *
  grind

theorem Valid.exchange {s : SparseSet} (hs : s.Valid) {i j : Nat}
    (hi : i < s.capacity) (hj : j < s.capacity) : (s.exchange i j).Valid := by
  have hindex := fun e he => hs.indexOf_lt e he
  have helement := fun k hk => hs.elementAt_lt k hk
  have hleft := fun e he => hs.elementAt_indexOf e he
  have hright := fun k hk => hs.indexOf_elementAt k hk
  refine ⟨?_, ?_, ?_, ?_, ?_, ?_⟩
  · simpa [SparseSet.exchange, capacity] using hs.size_positions
  · simpa using hs.size_le
  all_goals simp only [capacity_exchange, indexOf_exchange hs hi hj, elementAt_exchange hi hj]
  · intro e he
    split_ifs
    · exact hj
    · exact hi
    · exact hindex e he
  · intro k hk
    split_ifs
    · exact helement i hi
    · exact helement j hj
    · exact helement k hk
  · intro e he
    have hself := hleft e he
    clear hindex helement hleft hright
    grind
  · intro k hk
    have hself := hright k hk
    have hfirst := hright i hi
    have hsecond := hright j hj
    clear hindex helement hleft hright
    grind

theorem Valid.resize {s : SparseSet} (hs : s.Valid) {size : Nat}
    (h : size ≤ s.capacity) : Valid { s with size } :=
  ⟨hs.size_positions, h, hs.indexOf_lt, hs.elementAt_lt, hs.elementAt_indexOf,
    hs.indexOf_elementAt⟩

/-! ### Insertion and removal -/

theorem Valid.size_lt {s : SparseSet} (hs : s.Valid) {e : Nat}
    (he : e < s.capacity) (h : s.contains e = false) : s.size < s.capacity := by
  have hindex := hs.indexOf_lt e he
  have : ¬ s.indexOf e < s.size := fun hlt => by
    simp [(contains_iff hs).mpr ⟨he, hlt⟩] at h
  omega

@[simp]
theorem capacity_insert (s : SparseSet) (e : Nat) :
    (s.insert e).capacity = s.capacity := by
  unfold insert
  split
  · exact capacity_exchange s _ _
  · rfl

@[simp]
theorem capacity_erase (s : SparseSet) (e : Nat) :
    (s.erase e).capacity = s.capacity := by
  unfold erase
  split
  · exact capacity_exchange s _ _
  · rfl

theorem Valid.insert {s : SparseSet} (hs : s.Valid) (e : Nat) : (s.insert e).Valid := by
  unfold SparseSet.insert
  split
  next h =>
    have hlt := hs.size_lt h.1 (by simpa using h.2)
    exact (hs.exchange (hs.indexOf_lt e h.1) hlt).resize (by simp; omega)
  next => exact hs

theorem Valid.erase {s : SparseSet} (hs : s.Valid) (e : Nat) : (s.erase e).Valid := by
  unfold SparseSet.erase
  split
  next h =>
    obtain ⟨he, hlt⟩ := (contains_iff hs).mp h
    have hsize := hs.size_le
    exact (hs.exchange (hs.indexOf_lt e he) (by omega)).resize (by simp; omega)
  next => exact hs

theorem contains_insert {s : SparseSet} (hs : s.Valid) (e x : Nat) :
    (s.insert e).contains x = true ↔ (x = e ∧ e < s.capacity) ∨ s.contains x = true := by
  rw [contains_iff (hs.insert e), capacity_insert, contains_iff hs]
  unfold SparseSet.insert
  split
  next h =>
    obtain ⟨he, hnot⟩ := h
    have hlt := hs.size_lt he (by simpa using hnot)
    have hindex : s.size ≤ s.indexOf e := by
      rw [contains_iff hs] at hnot
      omega
    have hself := hs.elementAt_indexOf e he
    have hposition := indexOf_exchange hs (hs.indexOf_lt e he) hlt x
    change (x < s.capacity ∧ (s.exchange (s.indexOf e) s.size).indexOf x < s.size + 1) ↔ _
    rw [hposition, hself]
    have hboundary : x < s.capacity → s.indexOf x = s.size → x = s.elementAt s.size :=
      fun hx heq => by rw [← heq, hs.elementAt_indexOf x hx]
    have hinverse := hs.indexOf_elementAt s.size hlt
    grind
  next h =>
    rw [contains_iff hs] at h
    grind

theorem contains_erase {s : SparseSet} (hs : s.Valid) (e x : Nat) :
    (s.erase e).contains x = true ↔ x ≠ e ∧ s.contains x = true := by
  rw [contains_iff (hs.erase e), capacity_erase, contains_iff hs]
  unfold SparseSet.erase
  split
  next h =>
    obtain ⟨he, hlt⟩ := (contains_iff hs).mp h
    have hsize := hs.size_le
    have hlast : s.size - 1 < s.capacity := by omega
    have hself := hs.elementAt_indexOf e he
    have hposition := indexOf_exchange hs (hs.indexOf_lt e he) hlast x
    change (x < s.capacity ∧
      (s.exchange (s.indexOf e) (s.size - 1)).indexOf x < s.size - 1) ↔ _
    rw [hposition, hself]
    have hboundary : x < s.capacity → s.indexOf x = s.size - 1 →
        x = s.elementAt (s.size - 1) :=
      fun hx heq => by rw [← heq, hs.elementAt_indexOf x hx]
    have hinverse := hs.indexOf_elementAt (s.size - 1) hlast
    grind
  next h =>
    rw [contains_iff hs] at h
    grind

/-! ### Enumeration -/

theorem length_toList {s : SparseSet} (hs : s.Valid) : s.toList.length = s.size := by
  have := hs.size_le
  simp only [toList, List.length_take, Array.length_toList]
  exact Nat.min_eq_left this

theorem getElem_toList {s : SparseSet} {i : Nat} (h : i < s.toList.length) :
    s.toList[i] = s.elementAt i := by
  have hi : i < s.elements.size := by
    simp only [toList, List.length_take, Array.length_toList] at h
    omega
  simp [toList, elementAt, hi]

theorem mem_toList {s : SparseSet} (hs : s.Valid) {e : Nat} :
    e ∈ s.toList ↔ s.contains e = true := by
  have hsize := hs.size_le
  rw [contains_iff hs, List.mem_iff_getElem]
  constructor
  · rintro ⟨i, hi, rfl⟩
    rw [getElem_toList hi]
    rw [length_toList hs] at hi
    exact ⟨hs.elementAt_lt i (by omega), by rwa [hs.indexOf_elementAt i (by omega)]⟩
  · rintro ⟨he, hlt⟩
    refine ⟨s.indexOf e, by rwa [length_toList hs], ?_⟩
    rw [getElem_toList, hs.elementAt_indexOf e he]

theorem nodup_toList {s : SparseSet} (hs : s.Valid) : s.toList.Nodup := by
  rw [List.nodup_iff_injective_get]
  intro i j h
  have hsize := hs.size_le
  have hi : i.val < s.size := by simpa only [length_toList hs] using i.isLt
  have hj : j.val < s.size := by simpa only [length_toList hs] using j.isLt
  rw [List.get_eq_getElem, List.get_eq_getElem, getElem_toList, getElem_toList] at h
  apply Fin.ext
  rw [← hs.indexOf_elementAt i (by omega), h, hs.indexOf_elementAt j (by omega)]

/-- The members as a finite set. -/
def members (s : SparseSet) : Finset Nat :=
  (Finset.range s.capacity).filter fun e => s.contains e = true

theorem mem_members {s : SparseSet} (hs : s.Valid) {e : Nat} :
    e ∈ s.members ↔ s.contains e = true := by
  simp only [members, Finset.mem_filter, Finset.mem_range, and_iff_right_iff_imp]
  exact lt_capacity_of_contains hs

theorem card_members {s : SparseSet} (hs : s.Valid) : s.members.card = s.size := by
  have hset : s.members = s.toList.toFinset := by
    ext e
    rw [mem_members hs, List.mem_toFinset, mem_toList hs]
  rw [hset, List.toFinset_card_of_nodup (nodup_toList hs), length_toList hs]

theorem size_le_size {s t : SparseSet} (hs : s.Valid) (ht : t.Valid)
    (hsub : ∀ e, s.contains e = true → t.contains e = true) : s.size ≤ t.size := by
  rw [← card_members hs, ← card_members ht]
  exact Finset.card_le_card fun e he =>
    (mem_members ht).mpr (hsub e ((mem_members hs).mp he))

/-- A set has all members of a superset that is not larger. -/
theorem contains_of_size_le {s t : SparseSet} (hs : s.Valid) (ht : t.Valid)
    (hsub : ∀ e, s.contains e = true → t.contains e = true) (hsize : t.size ≤ s.size) {e : Nat}
    (he : t.contains e = true) : s.contains e = true := by
  have hmembers : s.members ⊆ t.members := fun x hx =>
    (mem_members ht).mpr (hsub x ((mem_members hs).mp hx))
  have heq := Finset.eq_of_subset_of_card_le hmembers
    (by rwa [card_members hs, card_members ht])
  rwa [← mem_members hs, heq, mem_members ht]

theorem isEmpty_iff {s : SparseSet} (hs : s.Valid) :
    s.isEmpty = true ↔ ∀ e, s.contains e = false := by
  rw [isEmpty, beq_iff_eq, ← card_members hs, Finset.card_eq_zero,
    Finset.eq_empty_iff_forall_notMem]
  simp only [mem_members hs, Bool.not_eq_true]

/-- Equality compares the universes and the members. -/
theorem beq_iff {s t : SparseSet} (hs : s.Valid) (ht : t.Valid) :
    (s == t) = true ↔ s.capacity = t.capacity ∧ ∀ e, s.contains e = t.contains e := by
  change s.sameMembers t = true ↔ _
  simp only [sameMembers, Bool.and_eq_true, beq_iff_eq, List.all_eq_true, mem_toList hs,
    and_assoc]
  refine and_congr_right fun _ => ?_
  constructor
  · rintro ⟨hsize, hsub⟩ e
    exact Bool.eq_iff_iff.mpr ⟨hsub e, contains_of_size_le hs ht hsub (Nat.le_of_eq hsize.symm)⟩
  · intro h
    refine ⟨?_, fun e he => h e ▸ he⟩
    have heq : s.members = t.members := by
      ext e
      rw [mem_members hs, mem_members ht, h]
    rw [← card_members hs, heq, card_members ht]

end SparseSet

end GraphInterval
