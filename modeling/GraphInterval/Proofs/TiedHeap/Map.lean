import GraphInterval.Proofs.TiedHeap.Order
import Mathlib.Data.Finset.Card

/-!
# The priority map hands out least keys

Every key of the map has an entry in the binary heap, whose root is thus a
least one once the entries of keys that were handed out are discarded.  The
stack of tied keys is a shortcut: its keys have the value that is a lower
bound on all others.  Either source of the next key yields one of least value,
and nothing is handed out that is not in the map.
-/

namespace GraphInterval

namespace TiedHeap

variable {α : Type} {n : ℕ} {h h' : TiedHeap α} {i k u hole : ℕ} {v : α}

/-! ### The keys in the map -/

/-- The keys below `n` that are in the map. -/
def keys (n : ℕ) (h : TiedHeap α) : Finset ℕ :=
  (Finset.range n).filter fun k => h.contains k = true

theorem Indexed.mem_keys (hi : Indexed n h) : k ∈ h.keys n ↔ h.contains k = true := by
  rw [keys, Finset.mem_filter, Finset.mem_range]
  exact and_iff_right_of_imp hi.lt_of_contains

variable [Ranked α]

/-- The tied keys are in the map and have its least value. -/
structure Tallied (n : ℕ) (h : TiedHeap α) : Prop where
  count_eq : h.count = (h.keys n).card
  tied_nodup : h.tied.Nodup
  tied : ∀ k ∈ h.tied, h.contains k = true ∧ h.value k ≤ h.tiedValue
  tiedValue_self : h.tiedValue ≤ h.tiedValue
  least : ∀ k, h.contains k = true → h.tiedValue ≤ h.value k

/-- A priority map over the keys below `n`. -/
structure Valid (n : ℕ) (h : TiedHeap α) : Prop where
  indexed : Indexed n h
  comparable : Comparable h
  ordered : Ordered h
  holds : ∀ k, h.contains k = true → h.Holds k
  tallied : Tallied n h

theorem Valid.stored (hv : Valid n h) : Stored n h := ⟨hv.indexed, hv.holds⟩

theorem Tallied.isEmpty_eq_false (ht : Tallied n h) (hi : Indexed n h)
    (hk : h.contains k = true) : h.isEmpty = false := by
  have hpos : 0 < h.count := ht.count_eq ▸ Finset.card_pos.mpr ⟨k, hi.mem_keys.mpr hk⟩
  rw [isEmpty, beq_eq_false_iff_ne]
  omega

/-- The keys in the map do not depend on the order of the entries. -/
theorem Tallied.congr (ht : Tallied n h)
    (hframe : { h' with heap := h.heap, positions := h.positions } = h) : Tallied n h' := by
  have hvalue : h'.value = h.value := (congrArg value hframe :)
  have hcontains : h'.contains = h.contains := (congrArg contains hframe :)
  have hcount : h'.count = h.count := (congrArg TiedHeap.count hframe :)
  have htied : h'.tied = h.tied := (congrArg TiedHeap.tied hframe :)
  have htiedValue : h'.tiedValue = h.tiedValue := (congrArg TiedHeap.tiedValue hframe :)
  refine ⟨?_, ?_, ?_, ?_, ?_⟩
  · rw [hcount, keys, hcontains]
    exact ht.count_eq
  · rw [htied]
    exact ht.tied_nodup
  · rw [htied, hcontains, hvalue, htiedValue]
    exact ht.tied
  · rw [htiedValue]
    exact ht.tiedValue_self
  · rw [hcontains, hvalue, htiedValue]
    exact ht.least

theorem Rearranged.valid (hr : Rearranged n h h') (hc : Comparable h) (ho : Ordered h')
    (hholds : ∀ k, h.contains k = true → h.Holds k) (ht : Tallied n h) : Valid n h' := by
  have hcontains : h'.contains = h.contains := (congrArg contains hr.frame :)
  have hvalue : h'.value = h.value := (congrArg value hr.frame :)
  refine ⟨hr.indexed, fun k => hvalue ▸ hc k, ho, fun k hk => ?_, ht.congr hr.frame⟩
  rw [hcontains] at hk
  exact (hr.holds_iff k).mpr (hholds k hk)

/-! ### Inserting a key -/

theorem count_assign (hi : Indexed n h) (ht : Tallied n h) (hu : u < n) (v : α) :
    ((h.noteTie u v).assign u v).count = (((h.noteTie u v).assign u v).keys n).card := by
  have hkeys : ((h.noteTie u v).assign u v).keys n = insert u (h.keys n) := by
    ext k
    rw [Finset.mem_insert, hi.mem_keys, keys, Finset.mem_filter, Finset.mem_range,
      contains_assign (hi.present_size.symm ▸ hu)]
    constructor
    · rintro ⟨-, hk | rfl⟩
      · exact .inr hk
      · exact .inl rfl
    · rintro (rfl | hk)
      · exact ⟨hu, .inr rfl⟩
      · exact ⟨hi.lt_of_contains hk, .inl hk⟩
  rw [(frame_assign h u v).2.2.2.2, hkeys]
  by_cases hold : h.contains u = true
  · rw [if_pos hold, Finset.insert_eq_of_mem (hi.mem_keys.mpr hold)]
    exact ht.count_eq
  · rw [if_neg hold, Finset.card_insert_of_notMem fun hmem => hold (hi.mem_keys.mp hmem),
      ht.count_eq]

variable [LawfulRanked α]

theorem noteTie_cases (hself : h.tiedValue ≤ h.tiedValue) (u : ℕ) (hv : v ≤ v) :
    ((h.isEmpty = true ∨ v < h.tiedValue) ∧ (h.noteTie u v).tied = [u] ∧
        (h.noteTie u v).tiedValue = v) ∨
      h.tiedValue ≤ v ∧ (h.noteTie u v).tiedValue = h.tiedValue ∧
        ((h.noteTie u v).tied = h.tied ∨
          v ≤ h.tiedValue ∧ (h.noteTie u v).tied = u :: h.tied) := by
  rw [noteTie]
  by_cases hreset : h.isEmpty = true ∨ v < h.tiedValue
  · rw [if_pos hreset]
    exact .inl ⟨hreset, rfl, rfl⟩
  · rw [if_neg hreset]
    refine .inr ⟨Ranked.le_of_not_lt hv hself fun hlt => hreset (.inr hlt), ?_⟩
    by_cases hequal : (v == h.tiedValue) = true
    · rw [if_pos hequal]
      exact ⟨rfl, .inr ⟨(LawfulRanked.beq_iff.mp hequal).1, rfl⟩⟩
    · rw [if_neg hequal]
      exact ⟨rfl, .inl rfl⟩

section Assign

variable (hcount : h'.count = (h'.keys n).card)
  (hcontains : ∀ k, h'.contains k = true ↔ h.contains k = true ∨ k = u)
  (hvalue : ∀ k, h'.value k = if k = u then v else h.value k)
include hcount hcontains hvalue

/-- A key of a value below all others, or the first key, is the only tied one. -/
theorem Tallied.reset (ht : Tallied n h) (hi : Indexed n h) (hv : v ≤ v)
    (hreset : h.isEmpty = true ∨ v < h.tiedValue) (htied : h'.tied = [u])
    (htiedValue : h'.tiedValue = v) : Tallied n h' := by
  refine ⟨hcount, by simp [htied], fun k hk => ?_, htiedValue ▸ hv, fun k hk => ?_⟩
  · rw [htied, List.mem_singleton] at hk
    rw [hk, htiedValue, hcontains, hvalue, if_pos rfl]
    exact ⟨.inr rfl, hv⟩
  · rw [htiedValue, hvalue]
    by_cases hku : k = u
    · rwa [if_pos hku]
    · rw [if_neg hku]
      have hin := ((hcontains k).mp hk).resolve_right hku
      have hless := hreset.resolve_left (by simp [ht.isEmpty_eq_false hi hin])
      exact Ranked.le_trans (Ranked.le_of_lt hless) (ht.least k hin)

/-- A key of a value that is not below the others joins the tied ones or leaves them alone. -/
theorem Tallied.join (ht : Tallied n h) (hnew : ¬ (h.contains u = true ∧ h.value u ≤ v))
    (hge : h.tiedValue ≤ v) (htiedValue : h'.tiedValue = h.tiedValue)
    (htied : h'.tied = h.tied ∨ v ≤ h.tiedValue ∧ h'.tied = u :: h.tied) : Tallied n h' := by
  -- a tied key has a value that is not above the offered one
  have hother : ∀ k ∈ h.tied, k ≠ u := by
    rintro k hk rfl
    obtain ⟨hin, hle⟩ := ht.tied k hk
    exact hnew ⟨hin, Ranked.le_trans hle hge⟩
  have hkept : ∀ k ∈ h.tied, h'.contains k = true ∧ h'.value k ≤ h'.tiedValue := by
    intro k hk
    obtain ⟨hin, hle⟩ := ht.tied k hk
    rw [hcontains, hvalue, if_neg (hother k hk), htiedValue]
    exact ⟨.inl hin, hle⟩
  have hself : h'.tiedValue ≤ h'.tiedValue := htiedValue ▸ ht.tiedValue_self
  have hleast : ∀ k, h'.contains k = true → h'.tiedValue ≤ h'.value k := by
    intro k hk
    rw [htiedValue, hvalue]
    by_cases hku : k = u
    · rwa [if_pos hku]
    · rw [if_neg hku]
      exact ht.least k (((hcontains k).mp hk).resolve_right hku)
  obtain htied | ⟨hequal, htied⟩ := htied
  · exact ⟨hcount, htied ▸ ht.tied_nodup, htied ▸ hkept, hself, hleast⟩
  · refine ⟨hcount, ?_, fun k hk => ?_, hself, hleast⟩
    · rw [htied, List.nodup_cons]
      exact ⟨fun hmem => hother u hmem rfl, ht.tied_nodup⟩
    · obtain rfl | hk := List.mem_cons.mp (htied ▸ hk)
      · rw [hcontains, hvalue, if_pos rfl, htiedValue]
        exact ⟨.inr rfl, hequal⟩
      · exact hkept k hk

end Assign

/-- A key of a new or lower value joins the tied keys if it belongs there. -/
theorem tallied_assign (hi : Indexed n h) (ht : Tallied n h) (hu : u < n) (hv : v ≤ v)
    (hnew : ¬ (h.contains u = true ∧ h.value u ≤ v)) :
    Tallied n ((h.noteTie u v).assign u v) := by
  have hcount := count_assign hi ht hu v
  have hcontains := contains_assign (h := h) (hi.present_size.symm ▸ hu) v
  have hvalue := value_assign (h := h) (hi.values_size.symm ▸ hu) v
  obtain ⟨hreset, htied, htiedValue⟩ | ⟨hge, htiedValue, htied⟩ :=
    noteTie_cases ht.tiedValue_self u hv
  · exact ht.reset hcount hcontains hvalue hi hv hreset htied htiedValue
  · exact ht.join hcount hcontains hvalue hnew hge htiedValue htied

/-- Lowering the value of one entry. -/
theorem Ordered.rising (ho : Ordered h) (hsize : h'.heap.size = h.heap.size)
    (hother : ∀ i < h.heap.size, i ≠ hole → h'.valueAt i = h.valueAt i)
    (hle : h'.valueAt hole ≤ h.valueAt hole) : Rising h' hole := by
  constructor
  · intro i hi0 hi hne
    rw [hsize] at hi
    rw [hother i hi hne]
    have hparent := ho i hi0 hi
    by_cases hp : (i - 1) / 2 = hole
    · rw [hp] at hparent ⊢
      exact Ranked.le_trans hle hparent
    · rwa [hother _ (by omega) hp]
  · intro i hi0 hi hp hhole
    rw [hsize] at hi
    rw [hother i hi (by omega), hother _ (by omega) (by omega)]
    have hparent := ho i hi0 hi
    rw [hp] at hparent
    exact Ranked.le_trans (ho hole hhole (by omega)) hparent

/-- Raising the value of one entry. -/
theorem Ordered.sinking (ho : Ordered h) (hsize : h'.heap.size = h.heap.size)
    (hother : ∀ i < h.heap.size, i ≠ hole → h'.valueAt i = h.valueAt i)
    (hle : h.valueAt hole ≤ h'.valueAt hole) : Sinking h' hole := by
  constructor
  · intro i hi0 hi hp
    rw [hsize] at hi
    rw [hother _ (by omega) hp]
    have hparent := ho i hi0 hi
    by_cases hne : i = hole
    · rw [hne] at hparent ⊢
      exact Ranked.le_trans hparent hle
    · rwa [hother i hi hne]
  · intro i hi0 hi hp hhole
    rw [hsize] at hi
    rw [hother i hi (by omega), hother _ (by omega) (by omega)]
    have hparent := ho i hi0 hi
    rw [hp] at hparent
    exact Ranked.le_trans (ho hole hhole (by omega)) hparent

/-- A key has a new value, and its entry was not moved yet. -/
structure Assigned (n : ℕ) (h : TiedHeap α) (u : ℕ) (v : α) (h' : TiedHeap α) : Prop where
  size_eq : h'.heap.size = h.heap.size
  holds_iff : ∀ k, h'.Holds k ↔ h.Holds k
  position_eq : ∀ k, h'.position k = h.position k
  keyAt_eq : ∀ i, h'.keyAt i = h.keyAt i
  indexed : Indexed n h'
  comparable : Comparable h'
  contains_iff : ∀ k, h'.contains k = true ↔ h.contains k = true ∨ k = u
  value_eq : ∀ k, h'.value k = if k = u then v else h.value k
  tallied : Tallied n h'

theorem assigned (hv : Valid n h) (hu : u < n) (hself : v ≤ v)
    (hnew : ¬ (h.contains u = true ∧ h.value u ≤ v)) :
    Assigned n h u v ((h.noteTie u v).assign u v) := by
  have hi := hv.indexed
  have hcontains := contains_assign (h := h) (hi.present_size.symm ▸ hu) v
  have hvalue := value_assign (h := h) (hi.values_size.symm ▸ hu) v
  have htallied := tallied_assign hi hv.tallied hu hself hnew
  have hcomparable : Comparable ((h.noteTie u v).assign u v) := by
    intro k
    rw [hvalue]
    split
    · exact hself
    · exact hv.comparable k
  obtain ⟨hindexed, hholds⟩ := indexed_assign hi u v
  obtain ⟨hheap, hpositions, -⟩ := frame_assign h u v
  exact ⟨by rw [hheap], hholds, fun k => by rw [position, hpositions, position],
    fun i => by rw [keyAt, hheap, keyAt], hindexed, hcomparable, hcontains, hvalue, htallied⟩

/-- The map after a key was offered, and whether it changed. -/
structure Offered (n : ℕ) (h : TiedHeap α) (u : ℕ) (v : α) (changed : Bool)
    (h' : TiedHeap α) : Prop where
  valid : Valid n h'
  changed_iff : changed = true ↔ ¬ (h.contains u = true ∧ h.value u ≤ v)
  contains_iff : ∀ k, h'.contains k = true ↔ h.contains k = true ∨ k = u
  value_eq : ∀ k, h'.value k = if changed = true ∧ k = u then v else h.value k

omit [LawfulRanked α] in
theorem Offered.contains_of_kept {changed : Bool} (ho : Offered n h u v changed h')
    (hk : h'.contains k = true) (hkept : ¬ (changed = true ∧ k = u)) : h.contains k = true := by
  obtain hk | rfl := (ho.contains_iff k).mp hk
  · exact hk
  · by_contra hout
    exact hkept ⟨ho.changed_iff.mpr fun hold => hout hold.1, rfl⟩

omit [LawfulRanked α] in
/-- The key that was offered has no larger value than the offered one. -/
theorem Offered.value_le {changed : Bool} (ho : Offered n h u v changed h') (hself : v ≤ v) :
    h'.value u ≤ v := by
  rw [ho.value_eq]
  by_cases hchanged : changed = true
  · rwa [if_pos ⟨hchanged, rfl⟩]
  · rw [if_neg fun h => hchanged h.1]
    by_contra hless
    exact hchanged (ho.changed_iff.mpr fun hold => hless hold.2)

/-- No value of a key grows. -/
theorem Offered.value_le_old {changed : Bool} (ho : Offered n h u v changed h')
    (hc : Comparable h) (hself : v ≤ v) (hk : h.contains k = true) :
    h'.value k ≤ h.value k := by
  rw [ho.value_eq]
  by_cases hkept : changed = true ∧ k = u
  · rw [if_pos hkept]
    obtain ⟨hchanged, rfl⟩ := hkept
    have hless : ¬ h.value k ≤ v := fun hle => ho.changed_iff.mp hchanged ⟨hk, hle⟩
    exact Ranked.le_of_lt (Ranked.lt_of_not_le (hc k) hself hless)
  · rw [if_neg hkept]
    exact hc k

omit [LawfulRanked α] in
theorem Assigned.offered {h₁ : TiedHeap α} (ha : Assigned n h u v h₁)
    (hnew : ¬ (h.contains u = true ∧ h.value u ≤ v)) (hvalid : Valid n h')
    (hframe : { h' with heap := h₁.heap, positions := h₁.positions } = h₁) :
    Offered n h u v true h' := by
  have hcontains : h'.contains = h₁.contains := (congrArg contains hframe :)
  have hvalue : h'.value = h₁.value := (congrArg value hframe :)
  refine ⟨hvalid, iff_of_true rfl hnew, hcontains ▸ ha.contains_iff, fun k => ?_⟩
  rw [hvalue, ha.value_eq]
  simp

theorem Assigned.move (ha : Assigned n h u v h') (hv : Valid n h) (hself : v ≤ v)
    (hnew : ¬ (h.contains u = true ∧ h.value u ≤ v)) (hpos : h.position u = some i) :
    Offered n h u v true (if v < h.value u then h'.siftUp i else h'.siftDown i) := by
  obtain ⟨hlt, hkey⟩ := (hv.indexed.position_iff u i).mp hpos
  have hlt' : i < h'.heap.size := by rwa [ha.size_eq]
  have hholds : ∀ k, h'.contains k = true → h'.Holds k := by
    intro k hk
    rw [ha.holds_iff]
    obtain hk | rfl := (ha.contains_iff k).mp hk
    · exact hv.holds k hk
    · exact ⟨i, hlt, hkey⟩
  have hat : h'.valueAt i = v := by
    rw [valueAt, ha.keyAt_eq, hkey, ha.value_eq, if_pos rfl]
  have hat' : h.valueAt i = h.value u := by
    rw [valueAt, hkey]
  have hother : ∀ j < h.heap.size, j ≠ i → h'.valueAt j = h.valueAt j := by
    intro j hj hne
    have hku : h.keyAt j ≠ u := fun heq => hne (hv.indexed.keyAt_inj hj hlt (heq.trans hkey.symm))
    rw [valueAt, ha.keyAt_eq, ha.value_eq, if_neg hku, valueAt]
  by_cases hless : v < h.value u
  · rw [if_pos hless]
    obtain ⟨hr, ho⟩ := siftUp_spec ha.indexed ha.comparable (hv.ordered.rising ha.size_eq hother
      (by rw [hat, hat']; exact Ranked.le_of_lt hless)) hlt'
    exact ha.offered hnew (hr.valid ha.comparable ho hholds ha.tallied) hr.frame
  · rw [if_neg hless]
    obtain ⟨hr, ho⟩ := siftDown_spec ha.indexed ha.comparable (hv.ordered.sinking ha.size_eq hother
      (by rw [hat, hat']; exact Ranked.le_of_not_lt hself (hv.comparable u) hless))
    exact ha.offered hnew (hr.valid ha.comparable ho hholds ha.tallied) hr.frame

theorem Assigned.append (ha : Assigned n h u v h') (hv : Valid n h) (hu : u < n)
    (hnew : ¬ (h.contains u = true ∧ h.value u ≤ v)) (hnone : h.position u = none) :
    Offered n h u v true ((h'.append u).siftUp ((h'.append u).heap.size - 1)) := by
  obtain ⟨hi, hsize, hkey, hholds⟩ := indexed_append ha.indexed hu ((ha.position_eq u).trans hnone)
  have hvalueAt : ∀ i < h.heap.size, (h'.append u).valueAt i = h.valueAt i := by
    intro i hlt
    have hku : h.keyAt i ≠ u := by
      intro heq
      rw [(hv.indexed.position_iff u i).mpr ⟨hlt, heq⟩] at hnone
      exact absurd hnone (by simp)
    rw [valueAt, hkey, ha.size_eq, if_neg (by omega), ha.keyAt_eq]
    exact (ha.value_eq _).trans (if_neg hku)
  have hrising : Rising (h'.append u) ((h'.append u).heap.size - 1) := by
    rw [hsize, ha.size_eq]
    constructor
    · intro i hi0 hlt hne
      rw [hsize, ha.size_eq] at hlt
      rw [hvalueAt i (by omega), hvalueAt _ (by omega)]
      exact hv.ordered i hi0 (by omega)
    · intro i hi0 hlt hp hpos
      rw [hsize, ha.size_eq] at hlt
      omega
  obtain ⟨hr, ho⟩ := siftUp_spec hi ha.comparable hrising (by omega)
  have hholds' : ∀ k, (h'.append u).contains k = true → (h'.append u).Holds k := by
    intro k hk
    rw [hholds, ha.holds_iff]
    obtain hk | hk := (ha.contains_iff k).mp hk
    · exact .inl (hv.holds k hk)
    · exact .inr hk
  apply ha.offered hnew (hr.valid ha.comparable ho hholds' (ha.tallied.congr rfl))
  exact congrArg (fun h : TiedHeap α => { h with heap := h'.heap, positions := h'.positions })
    hr.frame

theorem insertOrDecrease_spec (hv : Valid n h) (hu : u < n) (hself : v ≤ v) :
    Offered n h u v (h.insertOrDecrease u v).1 (h.insertOrDecrease u v).2 := by
  by_cases hold : h.contains u = true ∧ h.value u ≤ v
  · rw [insertOrDecrease, if_pos hold]
    refine ⟨hv, by simp [hold], fun k => ⟨.inl, ?_⟩, by simp⟩
    rintro (hk | rfl)
    · exact hk
    · exact hold.1
  · have ha := assigned hv hu hself hold
    simp only [insertOrDecrease, if_neg hold, ha.position_eq]
    cases hposition : h.position u with
    | none => exact ha.append hv hu hold hposition
    | some i => exact ha.move hv hself hold hposition

/-! ### Removing a key -/

/-- The map after the entry at the root was removed. -/
structure Beheaded (n : ℕ) (h h' : TiedHeap α) : Prop where
  frame : { h' with heap := h.heap, positions := h.positions } = h
  indexed : Indexed n h'
  ordered : Ordered h'
  holds_iff : ∀ k, h'.Holds k ↔ h.Holds k ∧ k ≠ h.keyAt 0

theorem removeRoot_spec (hv : Valid n h) (hpos : 0 < h.heap.size) :
    Beheaded n h h.removeRoot := by
  have hi := hv.indexed
  obtain ⟨hindexed, hframe, hholds⟩ := indexed_removeRoot hi hpos
  have hrearranged := rearranged_exchange hi hpos (j := h.heap.size - 1) (by omega)
  obtain ⟨hi', -⟩ := indexed_dropLast hrearranged.indexed (hrearranged.size_eq.symm ▸ hpos)
  have hsize' : (h.exchange 0 (h.heap.size - 1)).dropLast.heap.size = h.heap.size - 1 :=
    Array.size_pop.trans (by rw [size_exchange])
  have hvalueAt : ∀ i < h.heap.size - 1, 0 < i →
      (h.exchange 0 (h.heap.size - 1)).dropLast.valueAt i = h.valueAt i := by
    intro i hlt hi0
    rw [valueAt, keyAt_dropLast (by rw [size_exchange]; exact hlt)]
    have hexchange := valueAt_exchange hpos (show h.heap.size - 1 < h.heap.size by omega) i
    rw [if_neg (by omega), if_neg (by omega)] at hexchange
    exact hexchange
  have hsinking : Sinking (h.exchange 0 (h.heap.size - 1)).dropLast 0 := by
    constructor
    · intro i hi0 hlt hp
      rw [hsize'] at hlt
      rw [hvalueAt i hlt hi0, hvalueAt _ (by omega) (by omega)]
      exact hv.ordered i hi0 (by omega)
    · intro _ _ _ _ hlt
      omega
  obtain ⟨-, hordered⟩ := siftDown_spec hi' hv.comparable hsinking
  rw [← removeRoot_eq hpos] at hordered
  exact ⟨hframe, hindexed, hordered, hholds⟩

omit [LawfulRanked α] in
/-- Removing the entry of a key that was handed out already keeps the map valid. -/
theorem Beheaded.valid {h' : TiedHeap α} (hb : Beheaded n h h') (hv : Valid n h)
    (hstale : ¬ h.contains (h.keyAt 0) = true) : Valid n h' := by
  have hcontains : h'.contains = h.contains := (congrArg contains hb.frame :)
  have hvalue : h'.value = h.value := (congrArg value hb.frame :)
  refine ⟨hb.indexed, fun k => hvalue ▸ hv.comparable k, hb.ordered, fun k hk => ?_,
    hv.tallied.congr hb.frame⟩
  rw [hcontains] at hk
  refine (hb.holds_iff k).mpr ⟨hv.holds k hk, ?_⟩
  rintro rfl
  exact hstale hk

theorem Valid.discard (hv : Valid n h) (hstep : h.discard = some h') : Valid n h' := by
  rw [TiedHeap.discard] at hstep
  split_ifs at hstep with hstale
  obtain rfl := Option.some.inj hstep
  exact (removeRoot_spec hv hstale.1).valid hv hstale.2

/-- Discarding the entries of keys that were handed out already ends with a present key at the
root. -/
theorem iterate_discard (bound : ℕ) (hv : Valid n h) (hbound : h.heap.size ≤ bound) :
    Valid n (iterate discard bound h) ∧
      { iterate discard bound h with heap := h.heap, positions := h.positions } = h ∧
      (0 < (iterate discard bound h).heap.size →
        (iterate discard bound h).contains ((iterate discard bound h).keyAt 0) = true) := by
  have hvalid := iterate_preserves (fun _ _ (hv₁ : Valid n _) hstep => hv₁.discard hstep) bound h hv
  have hnone := discard_iterate bound h hbound
  refine ⟨hvalid, (iterate_discard_frame hv.stored bound).2, fun hpos => ?_⟩
  by_contra hne
  rw [discard, if_pos ⟨hpos, hne⟩] at hnone
  cases hnone

/-- The map after a key of least value was removed. -/
structure Popped (n : ℕ) (h : TiedHeap α) (u : ℕ) (h' : TiedHeap α) : Prop where
  valid : Valid n h'
  contained : h.contains u = true
  least : ∀ k, h.contains k = true → h.value u ≤ h.value k
  contains_iff : ∀ k, h'.contains k = true ↔ h.contains k = true ∧ k ≠ u
  value_eq : ∀ k, h'.value k = h.value k

omit [LawfulRanked α] in
theorem Tallied.release (ht : Tallied n h) (hi : Indexed n h) (hu : h.contains u = true)
    (htied : u ∉ h.tied) : Tallied n (h.release u) := by
  have hcontains := contains_release h u
  have hkeys : (h.release u).keys n = (h.keys n).erase u := by
    ext k
    rw [Finset.mem_erase, hi.mem_keys, keys, Finset.mem_filter, Finset.mem_range, hcontains]
    constructor
    · rintro ⟨-, hk, hne⟩
      exact ⟨hne, hk⟩
    · rintro ⟨hne, hk⟩
      exact ⟨hi.lt_of_contains hk, hk, hne⟩
  refine ⟨?_, ht.tied_nodup, fun k hk => ?_, ht.tiedValue_self, fun k hk =>
    ht.least k ((hcontains k).mp hk).1⟩
  · rw [hkeys, Finset.card_erase_of_mem (hi.mem_keys.mpr hu), ← ht.count_eq]
    rfl
  · obtain ⟨hin, hle⟩ := ht.tied k hk
    refine ⟨(hcontains k).mpr ⟨hin, ?_⟩, hle⟩
    rintro rfl
    exact htied hk

omit [LawfulRanked α] in
/-- A key that is not tied leaves the map, with or without its entry. -/
theorem popped_release (hv : Valid n h) (hi : Indexed n h') (ho : Ordered h')
    (hframe : { h' with heap := h.heap, positions := h.positions } = h)
    (hholds : ∀ k, h.Holds k → k ≠ u → h'.Holds k) (hu : h.contains u = true)
    (hleast : ∀ k, h.contains k = true → h.value u ≤ h.value k) (htied : u ∉ h.tied) :
    Popped n h u (h'.release u) := by
  have htallied := hv.tallied.release hv.indexed hu htied
  have hframe' : { h'.release u with heap := h.heap, positions := h.positions } = h.release u :=
    (congrArg (fun h : TiedHeap α => h.release u) hframe :)
  have hcontains : (h'.release u).contains = (h.release u).contains :=
    (congrArg contains hframe' :)
  have hvalue : (h'.release u).value = h.value := (congrArg value hframe' :)
  have hcontains' : ∀ k, (h'.release u).contains k = true ↔ h.contains k = true ∧ k ≠ u := by
    intro k
    rw [hcontains, contains_release]
  refine ⟨⟨⟨hi.values_size, hi.positions_size, ?_, hi.keyAt_lt, hi.position_iff⟩,
    fun k => hvalue ▸ hv.comparable k, ho, fun k hk => ?_, htallied.congr hframe'⟩, hu, hleast,
    hcontains', fun k => by rw [hvalue]⟩
  · simpa [release] using hi.present_size
  · obtain ⟨hin, hne⟩ := (hcontains' k).mp hk
    exact hholds k (hv.holds k hin) hne

omit [LawfulRanked α] in
/-- Fewer keys need not be known to be tied. -/
theorem Valid.untie (hv : Valid n h) {tied : List ℕ} (htied : h.tied = u :: tied) :
    Valid n { h with tied } := by
  have ht := hv.tallied
  have hnodup : (u :: tied).Nodup := htied ▸ ht.tied_nodup
  refine ⟨⟨hv.indexed.values_size, hv.indexed.positions_size, hv.indexed.present_size,
    hv.indexed.keyAt_lt, hv.indexed.position_iff⟩, hv.comparable, hv.ordered, hv.holds,
    ⟨ht.count_eq, (List.nodup_cons.mp hnodup).2, fun k hk => ht.tied k ?_, ht.tiedValue_self,
      ht.least⟩⟩
  rw [htied]
  exact List.mem_cons_of_mem u hk

/-- The first of the tied keys leaves the map, and its entry stays behind. -/
theorem popped_tied (hv : Valid n h) {tied : List ℕ} (htied : h.tied = u :: tied) :
    Popped n h u ({ h with tied }.release u) := by
  have hrest := hv.untie htied
  obtain ⟨hu, hle⟩ := hv.tallied.tied u (htied ▸ List.mem_cons_self)
  have hnodup : (u :: tied).Nodup := htied ▸ hv.tallied.tied_nodup
  have hpopped := popped_release hrest hrest.indexed hrest.ordered rfl (fun _ hk _ => hk) hu
    (fun k hk => Ranked.le_trans hle (hv.tallied.least k hk)) (List.nodup_cons.mp hnodup).1
  exact ⟨hpopped.valid, hpopped.contained, hpopped.least, hpopped.contains_iff, hpopped.value_eq⟩

/-- Where no key is tied, the key of the root leaves the map with its entry. -/
theorem popped_root (hv : Valid n h) (hpos : 0 < h.heap.size)
    (hroot : h.contains (h.keyAt 0) = true) (htied : h.tied = []) :
    Popped n h (h.keyAt 0) (h.removeRoot.release (h.keyAt 0)) := by
  have hb := removeRoot_spec hv hpos
  refine popped_release hv hb.indexed hb.ordered hb.frame
    (fun k hk hne => (hb.holds_iff k).mpr ⟨hk, hne⟩) hroot (fun k hk => ?_)
    (htied.symm ▸ List.not_mem_nil)
  obtain ⟨i, hlt, rfl⟩ := hv.holds k hk
  exact hv.ordered.root_le hv.comparable hlt

omit [LawfulRanked α] in
/-- Only the content matters. -/
theorem Popped.congr {h₁ : TiedHeap α} (hp : Popped n h₁ u h')
    (hcontains : h₁.contains = h.contains) (hvalue : h₁.value = h.value) : Popped n h u h' :=
  ⟨hp.valid, hcontains ▸ hp.contained, hcontains ▸ hvalue ▸ hp.least,
    hcontains ▸ hp.contains_iff, hvalue ▸ hp.value_eq⟩

theorem popMin_spec (hv : Valid n h) :
    (∃ u h', h.popMin = (some u, h') ∧ Popped n h u h') ∨
      ∃ h', h.popMin = (none, h') ∧ Valid n h' ∧ ∀ k, h.contains k = false := by
  rw [popMin]
  cases htied : h.tied with
  | cons u tied => exact .inl ⟨u, _, rfl, popped_tied hv htied⟩
  | nil =>
      obtain ⟨hv', hframe, hroot⟩ := iterate_discard h.heap.size hv le_rfl
      have hcontains : (iterate discard h.heap.size h).contains = h.contains :=
        (congrArg contains hframe :)
      have hvalue : (iterate discard h.heap.size h).value = h.value := (congrArg value hframe :)
      have htied' : (iterate discard h.heap.size h).tied = [] :=
        (congrArg TiedHeap.tied hframe :).trans htied
      generalize iterate discard h.heap.size h = h₁ at *
      dsimp only
      by_cases hempty : h₁.heap.isEmpty = true
      · rw [if_pos hempty]
        refine .inr ⟨h₁, rfl, hv', fun k => ?_⟩
        rw [Bool.eq_false_iff, ← hcontains]
        intro hk
        obtain ⟨i, hlt, -⟩ := hv'.holds k hk
        rw [Array.isEmpty_iff_size_eq_zero] at hempty
        omega
      · rw [if_neg hempty]
        rw [Array.isEmpty_iff_size_eq_zero] at hempty
        have hpos := Nat.pos_of_ne_zero hempty
        exact .inl ⟨_, _, rfl, (popped_root hv' hpos (hroot hpos) htied').congr hcontains hvalue⟩

/-! ### The empty map -/

theorem valid_of_vacant (hvalues : h.values.size = n) (hpositions : h.positions.size = n)
    (hpresent : h.present.size = n) (hheap : h.heap = #[])
    (hposition : ∀ k, h.position k = none) (hnone : ∀ k, h.contains k = false)
    (hcount : h.count = 0) (htied : h.tied = []) (htiedValue : h.tiedValue = Ranked.top)
    (hc : Comparable h) : Valid n h := by
  have hcontains : ∀ {k}, h.contains k ≠ true := by
    intro k hk
    exact absurd ((hnone k).symm.trans hk) (by simp)
  refine ⟨⟨hvalues, hpositions, hpresent, ?_, ?_⟩, hc, ?_, fun k hk => absurd hk hcontains, ?_⟩
  · simp [hheap]
  · simp [hheap, hposition]
  · intro i _ hlt
    simp [hheap] at hlt
  · exact ⟨by simp [hcount, keys, hnone], by simp [htied], by simp [htied],
      htiedValue.symm ▸ LawfulRanked.top_le_top, fun k hk => absurd hk hcontains⟩

theorem valid_empty (n : ℕ) : Valid n (empty n : TiedHeap α) := by
  apply valid_of_vacant
  · exact Array.size_replicate
  · exact Array.size_replicate
  · exact Array.size_replicate
  · rfl
  · intro k
    simp only [position, empty, Array.getD_eq_getD_getElem?, Array.getElem?_replicate]
    split <;> rfl
  · intro k
    simp only [contains, empty, Array.getD_eq_getD_getElem?, Array.getElem?_replicate]
    split <;> rfl
  · rfl
  · rfl
  · rfl
  · intro k
    have hvalue : (empty n : TiedHeap α).value k = Ranked.top := by
      simp only [value, empty, Array.getD_eq_getD_getElem?, Array.getElem?_replicate]
      split <;> rfl
    rw [hvalue]
    exact LawfulRanked.top_le_top

theorem clear_spec (hv : Valid n h) : Valid n h.clear ∧ ∀ k, h.clear.contains k = false := by
  obtain ⟨hs, hnone, hvacant⟩ := clear_vacant hv.stored
  exact ⟨valid_of_vacant hs.indexed.values_size hs.indexed.positions_size hs.indexed.present_size
    rfl hvacant hnone rfl rfl rfl hv.comparable, hnone⟩

end TiedHeap

end GraphInterval
