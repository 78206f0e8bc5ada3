import GraphInterval.Proofs.Scalar.Lawful
import GraphInterval.Proofs.TiedHeap.Entries

/-!
# The order of the binary heap

The entries of the priority map are ordered by the last values of their keys,
also of those that were handed out already, provided that every value compares
with itself.  While an entry moves towards the
root or towards the leaves, it is the only one out of order, and its parent
and its children are in order with each other.
-/

namespace GraphInterval

namespace TiedHeap

variable {α : Type} [Ranked α] {n : ℕ} {h h' : TiedHeap α} {i j k u hole : ℕ} {v : α}

/-! ### Parents and children -/

/-- Every value of the map compares with itself. -/
def Comparable (h : TiedHeap α) : Prop := ∀ k, h.value k ≤ h.value k

/-- No entry is smaller than its parent. -/
def Ordered (h : TiedHeap α) : Prop :=
  ∀ i, 0 < i → i < h.heap.size → h.valueAt ((i - 1) / 2) ≤ h.valueAt i

/-- Only one entry may be smaller than its parent. -/
structure Rising (h : TiedHeap α) (hole : ℕ) : Prop where
  off : ∀ i, 0 < i → i < h.heap.size → i ≠ hole → h.valueAt ((i - 1) / 2) ≤ h.valueAt i
  across : ∀ i, 0 < i → i < h.heap.size → (i - 1) / 2 = hole → 0 < hole →
    h.valueAt ((hole - 1) / 2) ≤ h.valueAt i

/-- Only one entry may be larger than its children. -/
structure Sinking (h : TiedHeap α) (hole : ℕ) : Prop where
  off : ∀ i, 0 < i → i < h.heap.size → (i - 1) / 2 ≠ hole → h.valueAt ((i - 1) / 2) ≤ h.valueAt i
  across : ∀ i, 0 < i → i < h.heap.size → (i - 1) / 2 = hole → 0 < hole →
    h.valueAt ((hole - 1) / 2) ≤ h.valueAt i

variable [LawfulRanked α]

theorem Ordered.root_le (hc : Comparable h) (ho : Ordered h) (hi : i < h.heap.size) :
    h.valueAt 0 ≤ h.valueAt i := by
  induction i using Nat.strong_induction_on with
  | h i ih =>
      by_cases hzero : i = 0
      · rw [hzero]
        exact hc _
      · have hparent := ih ((i - 1) / 2) (by omega) (by omega)
        exact Ranked.le_trans hparent (ho i (by omega) hi)

theorem Rising.exchange (hr : Rising h hole) (hlt : hole < h.heap.size) (hpos : 0 < hole)
    (hless : h.valueAt hole < h.valueAt ((hole - 1) / 2)) :
    Rising (h.exchange ((hole - 1) / 2) hole) ((hole - 1) / 2) := by
  have hp : (hole - 1) / 2 < h.heap.size := by omega
  have hsize := size_exchange h ((hole - 1) / 2) hole
  have hvalue := valueAt_exchange hp hlt
  constructor
  · intro i hi0 hi hne
    rw [hsize] at hi
    rw [hvalue, hvalue]
    by_cases hih : i = hole
    · rw [if_pos hih, hih, if_neg (by omega), if_pos rfl]
      exact Ranked.le_of_lt hless
    · rw [if_neg hih, if_neg hne]
      by_cases hph : (i - 1) / 2 = hole
      · rw [if_pos hph]
        exact hr.across i hi0 hi hph hpos
      · rw [if_neg hph]
        have hoff := hr.off i hi0 hi hih
        by_cases hpp : (i - 1) / 2 = (hole - 1) / 2
        · rw [if_pos hpp]
          rw [hpp] at hoff
          exact Ranked.le_trans (Ranked.le_of_lt hless) hoff
        · rwa [if_neg hpp]
  · intro i hi0 hi hpi hp0
    rw [hsize] at hi
    have hoff := hr.off ((hole - 1) / 2) hp0 hp (by omega)
    rw [hvalue, hvalue, if_neg (by omega), if_neg (by omega)]
    by_cases hih : i = hole
    · rwa [if_pos hih]
    · rw [if_neg hih, if_neg (by omega)]
      have hoff' := hr.off i hi0 hi hih
      rw [hpi] at hoff'
      exact Ranked.le_trans hoff hoff'

/-- The smallest among an entry and its children is not above any of them. -/
theorem smallestBelow_spec (hc : Comparable h) (i : ℕ) :
    (h.smallestBelow i = i ∨ (0 < h.smallestBelow i ∧ h.smallestBelow i < h.heap.size ∧
        (h.smallestBelow i - 1) / 2 = i ∧ h.valueAt (h.smallestBelow i) < h.valueAt i)) ∧
      ∀ j, 0 < j → j < h.heap.size → (j - 1) / 2 = i →
        h.valueAt (h.smallestBelow i) ≤ h.valueAt j := by
  have hchild : ∀ j, 0 < j → (j - 1) / 2 = i → j = 2 * i + 1 ∨ j = 2 * i + 1 + 1 := by
    intro j hj hp
    omega
  rw [smallestBelow]
  by_cases hleft : 2 * i + 1 < h.heap.size ∧ h.valueAt (2 * i + 1) < h.valueAt i
  · rw [if_pos hleft]
    by_cases hright : 2 * i + 1 + 1 < h.heap.size ∧
        h.valueAt (2 * i + 1 + 1) < h.valueAt (2 * i + 1)
    · rw [if_pos hright]
      refine ⟨.inr ⟨by omega, hright.1, by omega,
        Ranked.lt_of_lt_of_le hright.2 (Ranked.le_of_lt hleft.2)⟩, fun j hj0 hj hp => ?_⟩
      obtain rfl | rfl := hchild j hj0 hp
      · exact Ranked.le_of_lt hright.2
      · exact hc _
    · rw [if_neg hright]
      refine ⟨.inr ⟨by omega, hleft.1, by omega, hleft.2⟩, fun j hj0 hj hp => ?_⟩
      obtain rfl | rfl := hchild j hj0 hp
      · exact hc _
      · exact Ranked.le_of_not_lt (hc _) (hc _) fun hlt => hright ⟨hj, hlt⟩
  · rw [if_neg hleft]
    have hleft' : 2 * i + 1 < h.heap.size → h.valueAt i ≤ h.valueAt (2 * i + 1) := fun hj =>
      Ranked.le_of_not_lt (hc _) (hc _) fun hlt => hleft ⟨hj, hlt⟩
    by_cases hright : 2 * i + 1 + 1 < h.heap.size ∧ h.valueAt (2 * i + 1 + 1) < h.valueAt i
    · rw [if_pos hright]
      refine ⟨.inr ⟨by omega, hright.1, by omega, hright.2⟩, fun j hj0 hj hp => ?_⟩
      obtain rfl | rfl := hchild j hj0 hp
      · exact Ranked.le_trans (Ranked.le_of_lt hright.2) (hleft' hj)
      · exact hc _
    · rw [if_neg hright]
      refine ⟨.inl rfl, fun j hj0 hj hp => ?_⟩
      obtain rfl | rfl := hchild j hj0 hp
      · exact hleft' hj
      · exact Ranked.le_of_not_lt (hc _) (hc _) fun hlt => hright ⟨hj, hlt⟩

theorem Sinking.exchange {c : ℕ} (hs : Sinking h hole) (hc0 : 0 < c) (hc : c < h.heap.size)
    (hparent : (c - 1) / 2 = hole) (hless : h.valueAt c < h.valueAt hole)
    (hleast : ∀ j, 0 < j → j < h.heap.size → (j - 1) / 2 = hole → h.valueAt c ≤ h.valueAt j) :
    Sinking (h.exchange c hole) c := by
  have hlt : hole < h.heap.size := by omega
  have hsize := size_exchange h c hole
  have hvalue := valueAt_exchange hc hlt
  constructor
  · intro i hi0 hi hpc
    rw [hsize] at hi
    rw [hvalue, hvalue]
    by_cases hic : i = c
    · rw [hic, hparent, if_pos rfl, if_neg (by omega), if_pos rfl]
      exact Ranked.le_of_lt hless
    · by_cases hih : i = hole
      · rw [if_neg (by omega), if_neg (by omega), if_pos hih, hih]
        exact hs.across c hc0 hc hparent (by omega)
      · rw [if_neg hih, if_neg hic]
        by_cases hph : (i - 1) / 2 = hole
        · rw [if_pos hph]
          exact hleast i hi0 hi hph
        · rw [if_neg hph, if_neg hpc]
          exact hs.off i hi0 hi hph
  · intro i hi0 hi hpi _
    rw [hsize] at hi
    rw [hvalue, hvalue, hparent, if_pos rfl, if_neg (by omega), if_neg (by omega), ← hpi]
    exact hs.off i hi0 hi (by omega)

theorem Rising.step {s : TiedHeap α × ℕ} (hc : Comparable h) (hr : Rising h hole)
    (hlt : hole < h.heap.size) (hstep : rise (h, hole) = some s) :
    Comparable s.1 ∧ Rising s.1 s.2 ∧ s.2 < s.1.heap.size := by
  obtain ⟨hpos, hle, rfl⟩ := rise_eq_some hstep
  have hless := Ranked.lt_of_not_le (hc _) (hc _) hle
  refine ⟨hc, hr.exchange hlt hpos hless, ?_⟩
  have hsize := size_exchange h ((hole - 1) / 2) hole
  dsimp only at hpos ⊢
  omega

omit [LawfulRanked α] in
/-- An entry that stops on its way to the root is in order. -/
theorem Rising.ordered (hr : Rising h hole) (hnone : rise (h, hole) = none) : Ordered h := by
  intro i hi0 hlt
  by_cases hih : i = hole
  · subst hih
    by_contra hle
    rw [rise] at hnone
    simp only [if_neg (Nat.ne_of_gt hi0), if_neg hle] at hnone
    cases hnone
  · exact hr.off i hi0 hlt hih

theorem siftUp_spec (hi : Indexed n h) (hc : Comparable h) (hr : Rising h hole)
    (hlt : hole < h.heap.size) :
    Rearranged n h (h.siftUp hole) ∧ Ordered (h.siftUp hole) := by
  refine ⟨.siftUp hi hlt, ?_⟩
  have hend := iterate_preserves
    (P := fun s : TiedHeap α × ℕ => Comparable s.1 ∧ Rising s.1 s.2 ∧ s.2 < s.1.heap.size)
    (fun s next hs hstep => hs.2.1.step hs.1 hs.2.2 hstep) h.heap.size (h, hole) ⟨hc, hr, hlt⟩
  have hnone := rise_iterate h.heap.size (h, hole) (Nat.le_of_lt hlt)
  rw [siftUp]
  exact hend.2.1.ordered hnone

theorem Sinking.step {s : TiedHeap α × ℕ} (hc : Comparable h) (hs : Sinking h hole)
    (hstep : sink (h, hole) = some s) : Comparable s.1 ∧ Sinking s.1 s.2 := by
  obtain ⟨hlt, -, rfl⟩ := sink_eq_some hstep
  obtain ⟨hcases, hleast⟩ := smallestBelow_spec hc hole
  obtain ⟨hpos, hin, hparent, hless⟩ := hcases.resolve_left (Nat.ne_of_gt hlt)
  exact ⟨hc, hs.exchange hpos hin hparent hless hleast⟩

/-- An entry that stops on its way to the leaves is in order. -/
theorem Sinking.ordered (hc : Comparable h) (hs : Sinking h hole)
    (hnone : sink (h, hole) = none) : Ordered h := by
  have hend : h.smallestBelow hole = hole := by
    by_contra hne
    rw [sink] at hnone
    simp only [if_neg hne] at hnone
    cases hnone
  intro i hi0 hlt
  by_cases hp : (i - 1) / 2 = hole
  · have hle := (smallestBelow_spec hc hole).2 i hi0 hlt hp
    rwa [hend, ← hp] at hle
  · exact hs.off i hi0 hlt hp

theorem siftDown_spec (hi : Indexed n h) (hc : Comparable h) (hs : Sinking h hole) :
    Rearranged n h (h.siftDown hole) ∧ Ordered (h.siftDown hole) := by
  refine ⟨.siftDown hi hole, ?_⟩
  have hend := iterate_preserves
    (P := fun s : TiedHeap α × ℕ => Comparable s.1 ∧ Sinking s.1 s.2)
    (fun s next hs hstep => hs.2.step hs.1 hstep) h.heap.size (h, hole) ⟨hc, hs⟩
  have hnone := sink_iterate h.heap.size (h, hole) (Nat.le_add_left _ _)
  rw [siftDown]
  exact hend.2.ordered hend.1 hnone

end TiedHeap

end GraphInterval
