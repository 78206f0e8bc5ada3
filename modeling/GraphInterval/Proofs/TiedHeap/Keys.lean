import GraphInterval.Proofs.TiedHeap.Map

/-!
# The keys of the map under any comparisons

Which keys are in the map does not depend on the order of the values: a key
enters when it is offered and leaves when it is handed out.  Only the stack of
tied keys needs an order to be right.  Values that compare with nothing may
leave a key on it that is handed out a second time, and from then on the map
counts fewer keys than it has.
-/

namespace GraphInterval

namespace TiedHeap

variable {α : Type} [Ranked α] {n : ℕ} {h h' : TiedHeap α} {k u : ℕ}

theorem stored_empty (n : ℕ) : Stored n (empty n : TiedHeap α) := by
  have hposition : ∀ k, (empty n : TiedHeap α).position k = none := by
    intro k
    simp only [position, empty, Array.getD_eq_getD_getElem?, Array.getElem?_replicate]
    split <;> rfl
  have hcontains : ∀ k, (empty n : TiedHeap α).contains k ≠ true := by
    intro k
    simp only [contains, empty, Array.getD_eq_getD_getElem?, Array.getElem?_replicate]
    split <;> simp
  refine ⟨⟨Array.size_replicate, Array.size_replicate, Array.size_replicate,
    fun i hi => absurd hi (Nat.not_lt_zero i), fun k i => ?_⟩, fun k hk => absurd hk (hcontains k)⟩
  rw [hposition]
  exact iff_of_false (by simp) fun h => absurd h.1 (Nat.not_lt_zero i)

/-! ### Offering a key -/

/-- Apart from its entries, the map only gets the value of the key. -/
theorem insertOrDecrease_frame (hi : Indexed n h) (hu : u < n) (v : α)
    (hnew : ¬ (h.contains u = true ∧ h.value u ≤ v)) :
    { (h.insertOrDecrease u v).2 with heap := h.heap, positions := h.positions } =
      (h.noteTie u v).assign u v := by
  obtain ⟨hassigned, -⟩ := indexed_assign hi u v
  obtain ⟨hheap, hpositions, -⟩ := frame_assign h u v
  have hposition : ((h.noteTie u v).assign u v).position u = h.position u := by
    rw [position, hpositions, position]
  simp only [insertOrDecrease, if_neg hnew, hposition]
  generalize (h.noteTie u v).assign u v = h₁ at *
  have hframe : ∀ {h₂ : TiedHeap α},
      { h₂ with heap := h₁.heap, positions := h₁.positions } = h₁ →
        { h₂ with heap := h.heap, positions := h.positions } = h₁ := by
    rw [hheap, hpositions]
    exact id
  cases hpos : h.position u with
  | none =>
      obtain ⟨happend, hsize, -⟩ := indexed_append hassigned hu (hposition.trans hpos)
      have hlast : (h₁.append u).heap.size - 1 < (h₁.append u).heap.size := by omega
      apply hframe
      exact congrArg (fun h : TiedHeap α => { h with heap := h₁.heap, positions := h₁.positions })
        (Rearranged.siftUp happend hlast).frame
  | some i =>
      have hlt := ((hassigned.position_iff u i).mp (hposition.trans hpos)).1
      apply hframe
      dsimp only
      split
      · exact (Rearranged.siftUp hassigned hlt).frame
      · exact (Rearranged.siftDown hassigned i).frame

theorem contains_insertOrDecrease (hi : Indexed n h) (hu : u < n) (v : α) (k : ℕ) :
    (h.insertOrDecrease u v).2.contains k = true ↔ h.contains k = true ∨ k = u := by
  by_cases hold : h.contains u = true ∧ h.value u ≤ v
  · rw [insertOrDecrease, if_pos hold]
    refine ⟨.inl, ?_⟩
    rintro (hk | rfl)
    · exact hk
    · exact hold.1
  · have hcontains : (h.insertOrDecrease u v).2.contains =
        ((h.noteTie u v).assign u v).contains :=
      (congrArg contains (insertOrDecrease_frame hi hu v hold) :)
    rw [hcontains]
    exact contains_assign (hi.present_size.symm ▸ hu) v k

/-- A key whose offer changes nothing is in the map. -/
theorem contains_of_unchanged {v : α} (hsame : (h.insertOrDecrease u v).1 = false) :
    h.contains u = true := by
  by_contra hnot
  rw [insertOrDecrease, if_neg fun h => hnot h.1] at hsame
  dsimp only at hsame
  split at hsame <;> exact absurd hsame (by simp)

theorem keys_insertOrDecrease (hs : Stored n h) (hu : u < n) (v : α) :
    (h.insertOrDecrease u v).2.keys n = insert u (h.keys n) := by
  ext k
  rw [Finset.mem_insert, hs.indexed.mem_keys, (hs.insertOrDecrease hu v).indexed.mem_keys,
    contains_insertOrDecrease hs.indexed hu, or_comm]

/-- An offer raises the count by the number of new keys. -/
theorem count_insertOrDecrease (hs : Stored n h) (hu : u < n) (v : α) :
    (h.insertOrDecrease u v).2.count + (h.keys n).card =
      h.count + ((h.insertOrDecrease u v).2.keys n).card := by
  rw [keys_insertOrDecrease hs hu]
  by_cases hold : h.contains u = true ∧ h.value u ≤ v
  · rw [insertOrDecrease, if_pos hold, Finset.insert_eq_of_mem (hs.indexed.mem_keys.mpr hold.1)]
  · have hcount : (h.insertOrDecrease u v).2.count = ((h.noteTie u v).assign u v).count :=
      (congrArg count (insertOrDecrease_frame hs.indexed hu v hold) :)
    rw [hcount, (frame_assign h u v).2.2.2.2]
    by_cases hin : h.contains u = true
    · rw [if_pos hin, Finset.insert_eq_of_mem (hs.indexed.mem_keys.mpr hin)]
    · rw [if_neg hin, Finset.card_insert_of_notMem fun hmem => hin (hs.indexed.mem_keys.mp hmem)]
      omega

/-! ### Handing out a key -/

/-- A key is taken out of the map, in which it need not have been. -/
structure Released (h : TiedHeap α) (u : ℕ) (h' : TiedHeap α) : Prop where
  contains_iff : ∀ k, h'.contains k = true ↔ h.contains k = true ∧ k ≠ u
  count_eq : h'.count = h.count - 1

omit [Ranked α] in
theorem released_of_frame (hframe : { h' with
    heap := h.heap, positions := h.positions, tied := h.tied } = h) (u : ℕ) :
    Released h u (h'.release u) := by
  have hcontains : h'.contains = h.contains := (congrArg contains hframe :)
  have hcount : h'.count = h.count := (congrArg count hframe :)
  refine ⟨fun k => ?_, congrArg (· - 1) hcount⟩
  rw [contains_release, hcontains]

/-- Some key is handed out, or the map has none. -/
theorem popMin_cases (hs : Stored n h) :
    (∃ u h', h.popMin = (some u, h') ∧ Released h u h') ∨
      ∃ h', h.popMin = (none, h') ∧ h.keys n = ∅ := by
  rw [popMin]
  cases htied : h.tied with
  | cons u tied => exact .inl ⟨u, _, rfl, released_of_frame rfl u⟩
  | nil =>
      obtain ⟨hs', hframe⟩ := iterate_discard_frame hs h.heap.size
      have hcontains : (iterate discard h.heap.size h).contains = h.contains :=
        (congrArg contains hframe :)
      have htied' : (iterate discard h.heap.size h).tied = h.tied := (congrArg tied hframe :)
      generalize iterate discard h.heap.size h = h₁ at *
      dsimp only
      by_cases hempty : h₁.heap.isEmpty = true
      · rw [if_pos hempty]
        refine .inr ⟨h₁, rfl, Finset.eq_empty_of_forall_notMem fun k hk => ?_⟩
        rw [hs.indexed.mem_keys, ← hcontains] at hk
        obtain ⟨i, hlt, -⟩ := hs'.holds k hk
        rw [Array.isEmpty_iff_size_eq_zero] at hempty
        omega
      · rw [if_neg hempty]
        rw [Array.isEmpty_iff_size_eq_zero] at hempty
        obtain ⟨-, hframe', -⟩ := indexed_removeRoot hs'.indexed (by omega)
        refine .inl ⟨_, _, rfl, released_of_frame ?_ _⟩
        have hroot : { h₁.removeRoot with
            heap := h.heap, positions := h.positions } = h :=
          (congrArg (fun h₂ : TiedHeap α => { h₂ with heap := h.heap, positions := h.positions })
            hframe').trans hframe
        rw [← hroot]

omit [Ranked α] in
theorem Released.keys_eq (hr : Released h u h') (hi : Indexed n h) (hi' : Indexed n h') :
    h'.keys n = (h.keys n).erase u := by
  ext k
  rw [Finset.mem_erase, hi.mem_keys, hi'.mem_keys, hr.contains_iff, and_comm]

end TiedHeap

end GraphInterval
