import GraphInterval.TiedHeap
import Mathlib.Tactic.Common

/-!
# The entries of the binary heap

The binary heap keeps different keys and knows the index of each of them, and
every key of the map has an entry.  Neither depends on the values: it holds
with any comparisons, also where they obey no law.
-/

namespace GraphInterval

namespace TiedHeap

variable {α : Type} {n : ℕ} {h h' : TiedHeap α} {i j k u hole : ℕ}

/-! ### Entries -/

/-- The entries are different keys, and every index is known. -/
structure Indexed (n : ℕ) (h : TiedHeap α) : Prop where
  values_size : h.values.size = n
  positions_size : h.positions.size = n
  present_size : h.present.size = n
  keyAt_lt : ∀ i < h.heap.size, h.keyAt i < n
  position_iff : ∀ k i, h.position k = some i ↔ i < h.heap.size ∧ h.keyAt i = k

/-- The key has an entry. -/
def Holds (h : TiedHeap α) (k : ℕ) : Prop := ∃ i < h.heap.size, h.keyAt i = k

theorem Indexed.keyAt_inj (hi : Indexed n h) (hlt : i < h.heap.size) (hlt' : j < h.heap.size)
    (heq : h.keyAt i = h.keyAt j) : i = j := by
  have hpos := (hi.position_iff _ i).mpr ⟨hlt, rfl⟩
  have hpos' := (hi.position_iff _ j).mpr ⟨hlt', rfl⟩
  rw [heq, hpos'] at hpos
  exact (Option.some.inj hpos).symm

/-- The same entries in another order. -/
structure Rearranged (n : ℕ) (h h' : TiedHeap α) : Prop where
  frame : { h' with heap := h.heap, positions := h.positions } = h
  size_eq : h'.heap.size = h.heap.size
  indexed : Indexed n h'
  holds_iff : ∀ k, h'.Holds k ↔ h.Holds k

theorem Rearranged.refl (hi : Indexed n h) : Rearranged n h h := ⟨rfl, rfl, hi, fun _ => Iff.rfl⟩

theorem Rearranged.trans {h₁ h₂ h₃ : TiedHeap α} (hr : Rearranged n h₁ h₂)
    (hr' : Rearranged n h₂ h₃) : Rearranged n h₁ h₃ := by
  refine ⟨?_, hr'.size_eq.trans hr.size_eq, hr'.indexed, fun k => (hr'.holds_iff k).trans
    (hr.holds_iff k)⟩
  exact (congrArg (fun h : TiedHeap α => { h with heap := h₁.heap, positions := h₁.positions })
    hr'.frame).trans hr.frame

theorem size_exchange (h : TiedHeap α) (i j : ℕ) : (h.exchange i j).heap.size = h.heap.size := by
  simp [exchange]

theorem keyAt_exchange (hi : i < h.heap.size) (hj : j < h.heap.size) (x : ℕ) :
    (h.exchange i j).keyAt x =
      if x = j then h.keyAt i else if x = i then h.keyAt j else h.keyAt x := by
  simp only [keyAt, exchange, Array.getD_eq_getD_getElem?, Array.getElem?_setIfInBounds,
    Array.size_setIfInBounds]
  by_cases hxj : x = j
  · simp [hxj, hj]
  · by_cases hxi : x = i
    · simp [hxi, hi, hxi ▸ hxj, Ne.symm (hxi ▸ hxj)]
    · simp [hxj, hxi, Ne.symm hxj, Ne.symm hxi]

theorem rearranged_exchange (hh : Indexed n h) (hi : i < h.heap.size) (hj : j < h.heap.size) :
    Rearranged n h (h.exchange i j) := by
  have hsize := size_exchange h i j
  have hkey := keyAt_exchange hi hj
  have hposition : ∀ k, (h.exchange i j).position k =
      if k = h.keyAt i then some j else if k = h.keyAt j then some i else h.position k := by
    intro k
    have hi' : h.keyAt i < h.positions.size := hh.positions_size.symm ▸ hh.keyAt_lt i hi
    have hj' : h.keyAt j < h.positions.size := hh.positions_size.symm ▸ hh.keyAt_lt j hj
    simp only [position, exchange, Array.getD_eq_getD_getElem?, Array.getElem?_setIfInBounds,
      Array.size_setIfInBounds]
    by_cases hki : k = h.keyAt i
    · simp [hki, hi']
    · by_cases hkj : k = h.keyAt j
      · have hne : h.keyAt i ≠ h.keyAt j := fun heq => hki (hkj.trans heq.symm)
        simp [hkj, hj', hne, Ne.symm hne]
      · simp [hki, hkj, Ne.symm hki, Ne.symm hkj]
  refine ⟨rfl, hsize, ⟨hh.values_size, ?_, hh.present_size, fun x hx => ?_, fun k x => ?_⟩,
    fun k => ?_⟩
  · simpa [exchange] using hh.positions_size
  · rw [hsize] at hx
    rw [hkey]
    split
    · exact hh.keyAt_lt i hi
    · split
      · exact hh.keyAt_lt j hj
      · exact hh.keyAt_lt x hx
  · have hiff := hh.position_iff k x
    have hinj : ∀ {y}, y < h.heap.size → (h.keyAt y = h.keyAt i ↔ y = i) := fun hy =>
      ⟨hh.keyAt_inj hy hi, fun heq => heq ▸ rfl⟩
    have hinj' : ∀ {y}, y < h.heap.size → (h.keyAt y = h.keyAt j ↔ y = j) := fun hy =>
      ⟨hh.keyAt_inj hy hj, fun heq => heq ▸ rfl⟩
    rw [hposition, hkey, hsize]
    grind
  · simp only [Holds, hsize, hkey]
    grind

theorem Indexed.lt_of_contains (hi : Indexed n h) (hk : h.contains k = true) : k < n := by
  rw [← hi.present_size]
  by_contra hge
  rw [contains, Array.getD_eq_getD_getElem?, Array.getElem?_eq_none (Nat.le_of_not_lt hge)] at hk
  exact absurd hk (by simp)

/-! ### Adding and removing entries -/

theorem indexed_append (hi : Indexed n h) (hu : u < n) (hnone : h.position u = none) :
    Indexed n (h.append u) ∧ (h.append u).heap.size = h.heap.size + 1 ∧
      (∀ i, (h.append u).keyAt i = if i = h.heap.size then u else h.keyAt i) ∧
      ∀ k, (h.append u).Holds k ↔ h.Holds k ∨ k = u := by
  have hsize : (h.append u).heap.size = h.heap.size + 1 := Array.size_push _
  have hkey : ∀ i, (h.append u).keyAt i = if i = h.heap.size then u else h.keyAt i := by
    intro i
    simp only [keyAt, append, Array.getD_eq_getD_getElem?, Array.getElem?_push]
    split <;> rfl
  have hposition : ∀ k, (h.append u).position k =
      if k = u then some h.heap.size else h.position k := by
    intro k
    have hu' : u < h.positions.size := hi.positions_size.symm ▸ hu
    simp only [position, append, Array.getD_eq_getD_getElem?, Array.getElem?_setIfInBounds]
    by_cases hk : u = k
    · simp [hk ▸ hu', hk]
    · simp [hk, Ne.symm hk]
  have hfresh : ∀ i < h.heap.size, h.keyAt i ≠ u := by
    intro i hlt heq
    rw [(hi.position_iff u i).mpr ⟨hlt, heq⟩] at hnone
    exact absurd hnone (by simp)
  refine ⟨⟨hi.values_size, ?_, hi.present_size, fun i hlt => ?_, fun k i => ?_⟩, hsize, hkey,
    fun k => ?_⟩
  · simpa [append] using hi.positions_size
  · rw [hkey]
    split
    · exact hu
    · exact hi.keyAt_lt i (by omega)
  · have hiff := hi.position_iff k i
    rw [hposition, hkey, hsize]
    grind
  · simp only [Holds, hsize, hkey]
    constructor
    · rintro ⟨i, hlt, heq⟩
      split at heq
      · exact .inr heq.symm
      · exact .inl ⟨i, by omega, heq⟩
    · rintro (⟨i, hlt, heq⟩ | rfl)
      · exact ⟨i, by omega, by rwa [if_neg (by omega)]⟩
      · exact ⟨h.heap.size, by omega, if_pos rfl⟩

/-- The map without its last entry. -/
def dropLast (h : TiedHeap α) : TiedHeap α :=
  { h with
    heap := h.heap.pop
    positions := h.positions.setIfInBounds (h.keyAt (h.heap.size - 1)) none }

theorem keyAt_dropLast (hlt : i < h.heap.size - 1) : h.dropLast.keyAt i = h.keyAt i := by
  simp only [keyAt, dropLast, Array.getD_eq_getD_getElem?, Array.getElem?_pop]
  rw [if_pos hlt]

theorem position_dropLast (hi : Indexed n h) (hpos : 0 < h.heap.size) (k : ℕ) :
    h.dropLast.position k =
      if k = h.keyAt (h.heap.size - 1) then none else h.position k := by
  have hlast : h.keyAt (h.heap.size - 1) < h.positions.size :=
    hi.positions_size.symm ▸ hi.keyAt_lt _ (by omega)
  simp only [position, dropLast, Array.getD_eq_getD_getElem?, Array.getElem?_setIfInBounds]
  by_cases hk : h.keyAt (h.heap.size - 1) = k
  · simp [hk ▸ hlast, hk]
  · simp [hk, Ne.symm hk]

/-- Only the last entry has the key of the last entry. -/
theorem Indexed.keyAt_ne_last_iff (hi : Indexed n h) (hlt : i < h.heap.size) :
    h.keyAt i ≠ h.keyAt (h.heap.size - 1) ↔ i < h.heap.size - 1 := by
  constructor
  · intro hne
    by_contra hge
    exact hne (congrArg h.keyAt (by omega))
  · intro hless heq
    have hlast := hi.keyAt_inj hlt (by omega) heq
    omega

theorem indexed_dropLast (hi : Indexed n h) (hpos : 0 < h.heap.size) :
    Indexed n h.dropLast ∧
      ∀ k, h.dropLast.Holds k ↔ h.Holds k ∧ k ≠ h.keyAt (h.heap.size - 1) := by
  have hsize : h.dropLast.heap.size = h.heap.size - 1 := Array.size_pop
  have hkey : ∀ i < h.heap.size - 1, h.dropLast.keyAt i = h.keyAt i := fun i => keyAt_dropLast
  refine ⟨⟨hi.values_size, ?_, hi.present_size, fun i hlt => ?_, fun k i => ?_⟩, fun k => ?_⟩
  · simpa [dropLast] using hi.positions_size
  · rw [hsize] at hlt
    rw [hkey i hlt]
    exact hi.keyAt_lt i (by omega)
  · rw [position_dropLast hi hpos, hsize]
    constructor
    · intro heq
      split at heq
      · exact absurd heq (by simp)
      next hk =>
        obtain ⟨hlt, hkeyAt⟩ := (hi.position_iff k i).mp heq
        have hlt' := (hi.keyAt_ne_last_iff hlt).mp (hkeyAt ▸ hk)
        exact ⟨hlt', (hkey i hlt').trans hkeyAt⟩
    · rintro ⟨hlt, heq⟩
      rw [hkey i hlt] at heq
      rw [if_neg (heq ▸ (hi.keyAt_ne_last_iff (by omega)).mpr hlt)]
      exact (hi.position_iff k i).mpr ⟨by omega, heq⟩
  · constructor
    · rintro ⟨i, hlt, heq⟩
      rw [hsize] at hlt
      rw [hkey i hlt] at heq
      exact ⟨⟨i, by omega, heq⟩, heq ▸ (hi.keyAt_ne_last_iff (by omega)).mpr hlt⟩
    · rintro ⟨⟨i, hlt, heq⟩, hk⟩
      have hlt' := (hi.keyAt_ne_last_iff hlt).mp (heq ▸ hk)
      exact ⟨i, hsize.symm ▸ hlt', (hkey i hlt').trans heq⟩

theorem contains_release (h : TiedHeap α) (u k : ℕ) :
    (h.release u).contains k = true ↔ h.contains k = true ∧ k ≠ u := by
  simp only [contains, release, Array.getD_eq_getD_getElem?, Array.getElem?_setIfInBounds]
  by_cases hk : u = k
  · simp only [hk, if_true, ne_eq, not_true_eq_false, and_false, iff_false]
    split <;> simp
  · simp [hk, Ne.symm hk]

/-- Setting the values of the keys of a list. -/
theorem foldl_setIfInBounds {β : Type} (keys : List ℕ) (values : Array β) (x : β) :
    (keys.foldl (fun values key => values.setIfInBounds key x) values).size = values.size ∧
      ∀ k, (keys.foldl (fun values key => values.setIfInBounds key x) values).getD k x =
        if k ∈ keys then x else values.getD k x := by
  induction keys generalizing values with
  | nil => simp
  | cons key keys ih =>
      obtain ⟨hsize, hvalue⟩ := ih (values.setIfInBounds key x)
      refine ⟨hsize.trans Array.size_setIfInBounds, fun k => ?_⟩
      rw [List.foldl_cons, hvalue]
      by_cases hk : k ∈ keys
      · rw [if_pos hk, if_pos (List.mem_cons_of_mem key hk)]
      · rw [if_neg hk]
        simp only [Array.getD_eq_getD_getElem?, Array.getElem?_setIfInBounds, List.mem_cons, hk,
          or_false]
        by_cases heq : key = k
        · simp only [heq, if_true]
          split <;> rfl
        · simp [heq, Ne.symm heq]

/-! ### The keys of the map have entries -/

/-- Every key of the map has an entry. -/
structure Stored (n : ℕ) (h : TiedHeap α) : Prop where
  indexed : Indexed n h
  holds : ∀ k, h.contains k = true → h.Holds k

theorem Rearranged.stored (hr : Rearranged n h h') (hs : ∀ k, h.contains k = true → h.Holds k) :
    Stored n h' := by
  have hcontains : h'.contains = h.contains := (congrArg contains hr.frame :)
  refine ⟨hr.indexed, fun k hk => ?_⟩
  rw [hcontains] at hk
  exact (hr.holds_iff k).mpr (hs k hk)

theorem Stored.release (hs : Stored n h) (u : ℕ) : Stored n (h.release u) := by
  refine ⟨⟨hs.indexed.values_size, hs.indexed.positions_size, ?_, hs.indexed.keyAt_lt,
    hs.indexed.position_iff⟩, fun k hk => hs.holds k ((contains_release h u k).mp hk).1⟩
  exact Array.size_setIfInBounds.trans hs.indexed.present_size

/-! ### Values -/

variable [Ranked α]

theorem valueAt_exchange (hi : i < h.heap.size) (hj : j < h.heap.size) (x : ℕ) :
    (h.exchange i j).valueAt x =
      if x = j then h.valueAt i else if x = i then h.valueAt j else h.valueAt x := by
  rw [valueAt, keyAt_exchange hi hj]
  simp only [valueAt]
  split
  · rfl
  · split <;> rfl

theorem contains_assign (hu : u < h.present.size) (v : α) (k : ℕ) :
    ((h.noteTie u v).assign u v).contains k = true ↔ h.contains k = true ∨ k = u := by
  have hpresent : (h.noteTie u v).present = h.present := by
    rw [noteTie]
    split
    · rfl
    · split <;> rfl
  simp only [contains, assign, hpresent, Array.getD_eq_getD_getElem?, Array.getElem?_setIfInBounds]
  by_cases hk : u = k
  · simp [hk ▸ hu, hk]
  · simp [hk, Ne.symm hk]

theorem value_assign (hu : u < h.values.size) (v : α) (k : ℕ) :
    ((h.noteTie u v).assign u v).value k = if k = u then v else h.value k := by
  have hvalues : (h.noteTie u v).values = h.values := by
    rw [noteTie]
    split
    · rfl
    · split <;> rfl
  simp only [value, assign, hvalues, Array.getD_eq_getD_getElem?, Array.getElem?_setIfInBounds]
  by_cases hk : u = k
  · simp [hk ▸ hu, hk]
  · simp [hk, Ne.symm hk]

theorem frame_assign (h : TiedHeap α) (u : ℕ) (v : α) :
    ((h.noteTie u v).assign u v).heap = h.heap ∧
      ((h.noteTie u v).assign u v).positions = h.positions ∧
      ((h.noteTie u v).assign u v).values.size = h.values.size ∧
      ((h.noteTie u v).assign u v).present.size = h.present.size ∧
      ((h.noteTie u v).assign u v).count = if h.contains u then h.count else h.count + 1 := by
  have hsize : ∀ h : TiedHeap α, (h.assign u v).values.size = h.values.size ∧
      (h.assign u v).present.size = h.present.size := fun h =>
    ⟨Array.size_setIfInBounds, Array.size_setIfInBounds⟩
  rw [noteTie]
  split
  · exact ⟨rfl, rfl, (hsize _).1, (hsize _).2, rfl⟩
  · split <;> exact ⟨rfl, rfl, (hsize _).1, (hsize _).2, rfl⟩

/-! ### Moving entries -/

theorem smallestBelow_cases (h : TiedHeap α) (i : ℕ) :
    h.smallestBelow i = i ∨ (i < h.smallestBelow i ∧ h.smallestBelow i < h.heap.size) := by
  rw [smallestBelow]
  split_ifs <;> omega

/-- A step towards the root exchanges an entry with a parent that is not below it. -/
theorem rise_eq_some {s s' : TiedHeap α × ℕ} (hstep : rise s = some s') :
    0 < s.2 ∧ ¬ s.1.valueAt ((s.2 - 1) / 2) ≤ s.1.valueAt s.2 ∧
      s' = (s.1.exchange ((s.2 - 1) / 2) s.2, (s.2 - 1) / 2) := by
  rw [rise] at hstep
  dsimp only at hstep
  split_ifs at hstep with hroot hle
  exact ⟨Nat.pos_of_ne_zero hroot, hle, (Option.some.inj hstep).symm⟩

/-- A step towards the leaves exchanges an entry with a child. -/
theorem sink_eq_some {s s' : TiedHeap α × ℕ} (hstep : sink s = some s') :
    s.2 < s.1.smallestBelow s.2 ∧ s.1.smallestBelow s.2 < s.1.heap.size ∧
      s' = (s.1.exchange (s.1.smallestBelow s.2) s.2, s.1.smallestBelow s.2) := by
  rw [sink] at hstep
  split_ifs at hstep with hend
  obtain ⟨hlt, hsize⟩ := (smallestBelow_cases s.1 s.2).resolve_left hend
  exact ⟨hlt, hsize, (Option.some.inj hstep).symm⟩

/-- However the values compare, an entry on its way to the root comes to a stop. -/
theorem rise_iterate (bound : ℕ) (s : TiedHeap α × ℕ) (hbound : s.2 ≤ bound) :
    rise (iterate rise bound s) = none := by
  apply step_iterate_eq_none (P := fun _ => True) (m := Prod.snd) _ bound s trivial hbound
  intro s s' _ hstep
  obtain ⟨hpos, -, rfl⟩ := rise_eq_some hstep
  exact ⟨trivial, by omega⟩

/-- However the values compare, an entry on its way to the leaves comes to a stop. -/
theorem sink_iterate (bound : ℕ) (s : TiedHeap α × ℕ) (hbound : s.1.heap.size ≤ s.2 + bound) :
    sink (iterate sink bound s) = none := by
  apply step_iterate_eq_none (P := fun s' => s'.1.heap.size = s.1.heap.size)
    (m := fun s' => s.1.heap.size - s'.2) _ bound s rfl (by omega)
  intro s₁ s₂ hsize hstep
  obtain ⟨hlt, hin, rfl⟩ := sink_eq_some hstep
  exact ⟨(size_exchange _ _ _).trans hsize, by omega⟩

theorem Rearranged.siftUp (hi : Indexed n h) (hlt : hole < h.heap.size) :
    Rearranged n h (h.siftUp hole) := by
  refine (iterate_preserves (P := fun s : TiedHeap α × ℕ =>
    Rearranged n h s.1 ∧ s.2 < s.1.heap.size) ?_ _ _ ⟨.refl hi, hlt⟩).1
  rintro ⟨h₁, i⟩ next ⟨hr, hlt⟩ hstep
  obtain ⟨-, -, rfl⟩ := rise_eq_some hstep
  dsimp only at hlt
  have hparent : (i - 1) / 2 < h₁.heap.size := by omega
  have hr' := rearranged_exchange hr.indexed hparent hlt
  exact ⟨hr.trans hr', hr'.size_eq.symm ▸ hparent⟩

theorem Rearranged.siftDown (hi : Indexed n h) (hole : ℕ) : Rearranged n h (h.siftDown hole) := by
  refine iterate_preserves (P := fun s : TiedHeap α × ℕ => Rearranged n h s.1) ?_ _ _ (.refl hi)
  rintro s next hr hstep
  obtain ⟨hlt, hsize, rfl⟩ := sink_eq_some hstep
  exact hr.trans (rearranged_exchange hr.indexed hsize (Nat.lt_trans hlt hsize))

theorem size_siftDown (h : TiedHeap α) (hole : ℕ) :
    (h.siftDown hole).heap.size = h.heap.size := by
  apply iterate_preserves (P := fun s : TiedHeap α × ℕ => s.1.heap.size = h.heap.size) _ _ _ rfl
  intro s next hsize hstep
  obtain ⟨-, -, rfl⟩ := sink_eq_some hstep
  exact (size_exchange _ _ _).trans hsize

/-! ### Operations of the map -/

theorem indexed_assign (hi : Indexed n h) (u : ℕ) (v : α) :
    Indexed n ((h.noteTie u v).assign u v) ∧
      ∀ k, ((h.noteTie u v).assign u v).Holds k ↔ h.Holds k := by
  obtain ⟨hheap, hpositions, hvalues, hpresent, -⟩ := frame_assign h u v
  generalize (h.noteTie u v).assign u v = h' at *
  have hkeyAt : h'.keyAt = h.keyAt := by
    funext i
    rw [keyAt, keyAt, hheap]
  have hposition : h'.position = h.position := by
    funext k
    rw [position, position, hpositions]
  refine ⟨⟨hvalues.trans hi.values_size, ?_, hpresent.trans hi.present_size, ?_, ?_⟩, fun k => ?_⟩
  · rw [hpositions]
    exact hi.positions_size
  · rw [hheap, hkeyAt]
    exact hi.keyAt_lt
  · rw [hheap, hkeyAt, hposition]
    exact hi.position_iff
  · rw [Holds, Holds, hheap, hkeyAt]

theorem Stored.insertOrDecrease (hs : Stored n h) (hu : u < n) (v : α) :
    Stored n (h.insertOrDecrease u v).2 := by
  have hi := hs.indexed
  by_cases hold : h.contains u = true ∧ h.value u ≤ v
  · rw [TiedHeap.insertOrDecrease, if_pos hold]
    exact hs
  · obtain ⟨hassigned, hholds⟩ := indexed_assign hi u v
    have hcontains := contains_assign (h := h) (hi.present_size.symm ▸ hu) v
    have hposition : ((h.noteTie u v).assign u v).position u = h.position u := by
      rw [position, (frame_assign h u v).2.1, position]
    simp only [TiedHeap.insertOrDecrease, if_neg hold, hposition]
    generalize (h.noteTie u v).assign u v = h₁ at *
    cases hpos : h.position u with
    | none =>
        obtain ⟨happend, hsize, -, hholds'⟩ := indexed_append hassigned hu (hposition.trans hpos)
        refine (Rearranged.siftUp happend (by omega)).stored fun k hk => ?_
        rw [hholds', hholds]
        obtain hk | rfl := (hcontains k).mp hk
        · exact .inl (hs.holds k hk)
        · exact .inr rfl
    | some i =>
        have hstored : ∀ k, h₁.contains k = true → h₁.Holds k := by
          intro k hk
          rw [hholds]
          obtain hk | rfl := (hcontains k).mp hk
          · exact hs.holds k hk
          · exact ⟨i, (hi.position_iff _ i).mp hpos⟩
        have hlt := ((hassigned.position_iff u i).mp (hposition.trans hpos)).1
        dsimp only
        split
        · exact (Rearranged.siftUp hassigned hlt).stored hstored
        · exact (Rearranged.siftDown hassigned i).stored hstored

/-- The entry at the root is exchanged with the last one and dropped. -/
theorem removeRoot_eq (hpos : 0 < h.heap.size) :
    h.removeRoot = (h.exchange 0 (h.heap.size - 1)).dropLast.siftDown 0 := by
  rw [dropLast, size_exchange, keyAt_exchange hpos (by omega), if_pos rfl]
  rfl

theorem size_removeRoot (hpos : 0 < h.heap.size) :
    h.removeRoot.heap.size = h.heap.size - 1 := by
  rw [removeRoot_eq hpos, size_siftDown]
  exact Array.size_pop.trans (by rw [size_exchange])

/-- The discarding of entries stops, at the latest when none is left. -/
theorem discard_iterate (bound : ℕ) (h : TiedHeap α) (hbound : h.heap.size ≤ bound) :
    discard (iterate discard bound h) = none := by
  apply step_iterate_eq_none (P := fun _ => True) (m := fun h => h.heap.size) _ bound h trivial
    hbound
  intro h₁ h₂ _ hstep
  rw [discard] at hstep
  split_ifs at hstep with hstale
  obtain rfl := Option.some.inj hstep
  exact ⟨trivial, by rw [size_removeRoot hstale.1]; omega⟩

/-- Removing the root removes the entry of its key only. -/
theorem indexed_removeRoot (hi : Indexed n h) (hpos : 0 < h.heap.size) :
    Indexed n h.removeRoot ∧ { h.removeRoot with heap := h.heap, positions := h.positions } = h ∧
      ∀ k, h.removeRoot.Holds k ↔ h.Holds k ∧ k ≠ h.keyAt 0 := by
  have hr := rearranged_exchange hi hpos (j := h.heap.size - 1) (by omega)
  have hlast : (h.exchange 0 (h.heap.size - 1)).keyAt (h.heap.size - 1) = h.keyAt 0 := by
    rw [keyAt_exchange hpos (by omega), if_pos rfl]
  obtain ⟨hi', hholds⟩ := indexed_dropLast hr.indexed (hr.size_eq.symm ▸ hpos)
  have hsift := Rearranged.siftDown hi' 0
  rw [removeRoot_eq hpos]
  refine ⟨hsift.indexed, ?_, fun k => ?_⟩
  · exact congrArg (fun h₁ : TiedHeap α => { h₁ with heap := h.heap, positions := h.positions })
      hsift.frame
  · rw [hsift.holds_iff, hholds, hr.holds_iff, hr.size_eq, hlast]

theorem Stored.discard (hs : Stored n h) (hstep : h.discard = some h') : Stored n h' := by
  rw [TiedHeap.discard] at hstep
  split_ifs at hstep with hstale
  obtain rfl := Option.some.inj hstep
  obtain ⟨hi, hframe, hholds⟩ := indexed_removeRoot hs.indexed hstale.1
  have hcontains : h.removeRoot.contains = h.contains := (congrArg contains hframe :)
  refine ⟨hi, fun k hk => ?_⟩
  rw [hcontains] at hk
  rw [hholds]
  refine ⟨hs.holds k hk, ?_⟩
  rintro rfl
  exact hstale.2 hk

theorem discard_frame (hs : Stored n h) (hdiscard : h.discard = some h') :
    { h' with heap := h.heap, positions := h.positions } = h := by
  rw [discard] at hdiscard
  split_ifs at hdiscard with hstale
  obtain rfl := Option.some.inj hdiscard
  exact (indexed_removeRoot hs.indexed hstale.1).2.1

theorem iterate_discard_frame (hs : Stored n h) (bound : ℕ) :
    Stored n (iterate discard bound h) ∧
      { iterate discard bound h with heap := h.heap, positions := h.positions } = h := by
  apply iterate_preserves (P := fun h₁ : TiedHeap α =>
    Stored n h₁ ∧ { h₁ with heap := h.heap, positions := h.positions } = h) _ _ _ ⟨hs, rfl⟩
  rintro h₁ h₂ ⟨hs₁, hframe₁⟩ hdiscard
  refine ⟨hs₁.discard hdiscard, ?_⟩
  exact (congrArg (fun h₃ : TiedHeap α => { h₃ with heap := h.heap, positions := h.positions })
    (discard_frame hs₁ hdiscard)).trans hframe₁

theorem Stored.popMin (hs : Stored n h) : Stored n h.popMin.2 := by
  rw [TiedHeap.popMin]
  split
  next u tied htied =>
    exact Stored.release (h := { h with tied := tied }) ⟨⟨hs.indexed.values_size,
      hs.indexed.positions_size, hs.indexed.present_size, hs.indexed.keyAt_lt,
      hs.indexed.position_iff⟩, hs.holds⟩ u
  next =>
    have hs' := iterate_preserves (P := Stored n) (fun _ _ hs hstep => hs.discard hstep)
      h.heap.size h hs
    generalize iterate TiedHeap.discard h.heap.size h = h₁ at *
    dsimp only
    split
    · exact hs'
    next hne =>
      rw [Array.isEmpty_iff_size_eq_zero] at hne
      obtain ⟨hi, hframe, hholds⟩ := indexed_removeRoot hs'.indexed (by omega)
      have hcontains : h₁.removeRoot.contains = h₁.contains := (congrArg contains hframe :)
      generalize h₁.removeRoot = h₂ at *
      refine ⟨⟨hi.values_size, hi.positions_size, Array.size_setIfInBounds.trans hi.present_size,
        hi.keyAt_lt, hi.position_iff⟩, fun k hk => ?_⟩
      obtain ⟨hin, hne⟩ := (contains_release h₂ _ k).mp hk
      rw [hcontains] at hin
      exact (hholds k).mpr ⟨hs'.holds k hin, hne⟩

/-! ### The empty map -/

/-- Clearing leaves neither keys nor entries. -/
theorem clear_vacant (hs : Stored n h) :
    Stored n h.clear ∧ (∀ k, h.clear.contains k = false) ∧ ∀ k, h.clear.position k = none := by
  obtain ⟨hpositions, hposition⟩ := foldl_setIfInBounds h.heap.toList h.positions none
  obtain ⟨hpresent, hcontains⟩ := foldl_setIfInBounds h.heap.toList h.present false
  have hpositions' : h.clear.positions =
      h.heap.toList.foldl (fun positions key => positions.setIfInBounds key none) h.positions :=
    (Array.foldl_toList _).symm
  have hpresent' : h.clear.present =
      h.heap.toList.foldl (fun present key => present.setIfInBounds key false) h.present :=
    (Array.foldl_toList _).symm
  have hmem : ∀ {k}, h.Holds k → k ∈ h.heap.toList := by
    rintro k ⟨i, hlt, rfl⟩
    rw [keyAt, Array.getD_eq_getD_getElem?, Array.getElem?_eq_getElem hlt]
    exact Array.getElem_mem_toList hlt
  have hnone : ∀ k, h.clear.contains k = false := by
    intro k
    rw [contains, hpresent', hcontains]
    split
    · rfl
    next hk =>
      rw [Bool.eq_false_iff]
      exact fun hin => hk (hmem (hs.holds k hin))
  have hvacant : ∀ k, h.clear.position k = none := by
    intro k
    rw [position, hpositions', hposition]
    split
    · rfl
    next hk =>
      rw [Option.eq_none_iff_forall_ne_some]
      exact fun i hi => hk (hmem ⟨i, (hs.indexed.position_iff k i).mp hi⟩)
  refine ⟨⟨⟨hs.indexed.values_size, ?_, ?_, ?_, fun k i => ?_⟩, fun k hk => ?_⟩, hnone, hvacant⟩
  · rw [hpositions']
    exact hpositions.trans hs.indexed.positions_size
  · rw [hpresent']
    exact hpresent.trans hs.indexed.present_size
  · exact fun i hlt => absurd hlt (Nat.not_lt_zero i)
  · rw [hvacant]
    exact iff_of_false (by simp) fun h => absurd h.1 (Nat.not_lt_zero i)
  · rw [hnone] at hk
    cases hk

end TiedHeap

end GraphInterval
