import GraphInterval.Proofs.Lockstep
import GraphInterval.Proofs.TiedHeap.Keys

/-!
# Values that nobody reads

Clearing the map leaves the values of all keys behind.  A value is read only
while its key has an entry in the binary heap, and a key that gets an entry
gets a value first.  Two maps that differ in the values of keys without an
entry therefore do the same under all operations, however the values compare.
-/

namespace GraphInterval

namespace TiedHeap

variable {α : Type} {n : ℕ} {h h' h₁ h₁' : TiedHeap α} {i j k u : ℕ}

section Alike

variable [Ranked α]

theorem noteTie_values (h : TiedHeap α) (values : Array α) (u : ℕ) (v : α) :
    ({ h with values } : TiedHeap α).noteTie u v = { h.noteTie u v with values } := by
  have hempty : ({ h with values } : TiedHeap α).isEmpty = h.isEmpty := rfl
  simp only [noteTie, hempty]
  split_ifs <;> rfl

/-- A map that was cleared differs from a new one in its values only. -/
theorem clear_eq (hs : Stored n h) :
    h.clear = { (empty n : TiedHeap α) with values := h.values } := by
  obtain ⟨⟨hindexed, -⟩, hcontains, hposition⟩ := clear_vacant hs
  have hpositions : h.clear.positions = Array.replicate n none :=
    Array.ext (hindexed.positions_size.trans Array.size_replicate.symm) fun i hi _ => by
      have hnone := hposition i
      rw [position, Array.getD_eq_getD_getElem?, Array.getElem?_eq_getElem hi] at hnone
      rw [Array.getElem_replicate]
      exact hnone
  have hpresent : h.clear.present = Array.replicate n false :=
    Array.ext (hindexed.present_size.trans Array.size_replicate.symm) fun i hi _ => by
      have hfalse := hcontains i
      rw [contains, Array.getD_eq_getD_getElem?, Array.getElem?_eq_getElem hi] at hfalse
      rw [Array.getElem_replicate]
      exact hfalse
  rw [empty, ← hpositions, ← hpresent]
  rfl

/-- The maps differ at most in the values of keys without an entry. -/
structure Alike (n : ℕ) (h h' : TiedHeap α) : Prop where
  indexed : Indexed n h
  frame : { h with values := h'.values } = h'
  size : h'.values.size = n
  value : ∀ k, h.Holds k → h.value k = h'.value k

namespace Alike

theorem heap_eq (ha : Alike n h h') : h'.heap = h.heap := (congrArg heap ha.frame :).symm

theorem keyAt_eq (ha : Alike n h h') : h'.keyAt = h.keyAt := (congrArg keyAt ha.frame :).symm

theorem contains_eq (ha : Alike n h h') : h'.contains = h.contains :=
  (congrArg contains ha.frame :).symm

theorem position_eq (ha : Alike n h h') : h'.position = h.position :=
  (congrArg position ha.frame :).symm

theorem tied_eq (ha : Alike n h h') : h'.tied = h.tied := (congrArg tied ha.frame :).symm

theorem isEmpty_eq (ha : Alike n h h') : h'.isEmpty = h.isEmpty :=
  (congrArg isEmpty ha.frame :).symm

/-- Inside of the binary heap the values agree. -/
theorem valueAt_eq (ha : Alike n h h') (hi : i < h.heap.size) : h.valueAt i = h'.valueAt i := by
  rw [valueAt, valueAt, ha.keyAt_eq]
  exact ha.value _ ⟨i, hi, rfl⟩

/-- Operations that neither read nor write values keep the relation if they keep or drop
entries. -/
theorem congr (ha : Alike n h h') (f : TiedHeap α → TiedHeap α)
    (hf : ∀ h values, f { h with values } = { f h with values })
    (hindexed : Indexed n (f h)) (hholds : ∀ k, (f h).Holds k → h.Holds k) :
    Alike n (f h) (f h') := by
  have hvalues : ∀ h, (f h).values = h.values := fun h =>
    (congrArg values (hf h h.values) :)
  refine ⟨hindexed, ?_, ?_, fun k hk => ?_⟩
  · rw [hvalues, ← hf, ha.frame]
  · rw [hvalues]
    exact ha.size
  · simp only [TiedHeap.value, hvalues]
    exact ha.value k (hholds k hk)

theorem exchange (ha : Alike n h h') (hi : i < h.heap.size) (hj : j < h.heap.size) :
    Alike n (h.exchange i j) (h'.exchange i j) := by
  have hr := rearranged_exchange ha.indexed hi hj
  exact ha.congr (·.exchange i j) (fun _ _ => rfl) hr.indexed fun k => (hr.holds_iff k).mp

theorem rise (ha : Alike n h h') (hi : i < h.heap.size) :
    Option.Rel (fun s t => s.2 = t.2 ∧ s.2 < s.1.heap.size ∧ Alike n s.1 t.1)
      (TiedHeap.rise (h, i)) (TiedHeap.rise (h', i)) := by
  have hparent : (i - 1) / 2 < h.heap.size := by omega
  simp only [TiedHeap.rise, ← ha.valueAt_eq hi, ← ha.valueAt_eq hparent]
  split_ifs
  · exact .none
  · exact .none
  · exact .some ⟨rfl, (size_exchange h _ _).symm ▸ hparent, ha.exchange hparent hi⟩

theorem siftUp (ha : Alike n h h') (hi : i < h.heap.size) :
    Alike n (h.siftUp i) (h'.siftUp i) := by
  rw [TiedHeap.siftUp, TiedHeap.siftUp, ha.heap_eq]
  have hstart : i = i ∧ i < h.heap.size ∧ Alike n h h' := ⟨rfl, hi, ha⟩
  refine (iterate_lockstep (R := fun s t : TiedHeap α × ℕ =>
    s.2 = t.2 ∧ s.2 < s.1.heap.size ∧ Alike n s.1 t.1) ?_ _ hstart).2.2
  rintro ⟨h₁, i⟩ ⟨h₁', j⟩ ⟨heq, hi, ha⟩
  obtain rfl : i = j := heq
  exact ha.rise hi

theorem smallestBelow_eq (ha : Alike n h h') (i : ℕ) : h'.smallestBelow i = h.smallestBelow i := by
  have hless : ∀ {a b}, (a < h.heap.size ∧ b < h.heap.size) →
      (h'.valueAt a < h'.valueAt b ↔ h.valueAt a < h.valueAt b) := by
    rintro a b ⟨ha', hb⟩
    rw [ha.valueAt_eq ha', ha.valueAt_eq hb]
  simp only [TiedHeap.smallestBelow, ha.heap_eq]
  have hleft : (2 * i + 1 < h.heap.size ∧ h'.valueAt (2 * i + 1) < h'.valueAt i) ↔
      2 * i + 1 < h.heap.size ∧ h.valueAt (2 * i + 1) < h.valueAt i :=
    and_congr_right fun hlt => hless ⟨hlt, by omega⟩
  simp only [hleft]
  have hright : ∀ {a}, a ≤ 2 * i + 1 →
      ((2 * i + 1 + 1 < h.heap.size ∧ h'.valueAt (2 * i + 1 + 1) < h'.valueAt a) ↔
        2 * i + 1 + 1 < h.heap.size ∧ h.valueAt (2 * i + 1 + 1) < h.valueAt a) :=
    fun hle => and_congr_right fun hlt => hless ⟨hlt, by omega⟩
  split
  · simp only [hright le_rfl]
  · simp only [hright (show i ≤ 2 * i + 1 by omega)]

theorem siftDown (ha : Alike n h h') (i : ℕ) : Alike n (h.siftDown i) (h'.siftDown i) := by
  rw [TiedHeap.siftDown, TiedHeap.siftDown, ha.heap_eq]
  have hstart : i = i ∧ Alike n h h' := ⟨rfl, ha⟩
  refine (iterate_lockstep (R := fun s t : TiedHeap α × ℕ => s.2 = t.2 ∧ Alike n s.1 t.1)
    ?_ _ hstart).2
  rintro ⟨h₁, i⟩ ⟨h₁', j⟩ ⟨heq, ha⟩
  obtain rfl : i = j := heq
  simp only [sink, ha.smallestBelow_eq]
  split_ifs with hend
  · exact .none
  · obtain ⟨hlt, hsize⟩ := (smallestBelow_cases h₁ i).resolve_left hend
    exact .some ⟨rfl, ha.exchange hsize (Nat.lt_trans hlt hsize)⟩

/-- A key that gets a value gets the same one in both maps. -/
theorem assign (ha : Alike n h h') (hu : u < n) (v : α) :
    Alike n ((h.noteTie u v).assign u v) ((h'.noteTie u v).assign u v) := by
  obtain ⟨hindexed, hholds⟩ := indexed_assign ha.indexed u v
  refine ⟨hindexed, ?_, (frame_assign h' u v).2.2.1.trans ha.size, fun k hk => ?_⟩
  · have hnote : h'.noteTie u v = { h.noteTie u v with values := h'.values } := by
      rw [← noteTie_values, ha.frame]
    rw [hnote]
    rfl
  · rw [value_assign (ha.indexed.values_size.symm ▸ hu), value_assign (ha.size.symm ▸ hu)]
    split
    · rfl
    · exact ha.value k ((hholds k).mp hk)

theorem append (ha : Alike n h h') (hu : u < n) (hnone : h.position u = none)
    (hvalue : h.value u = h'.value u) : Alike n (h.append u) (h'.append u) := by
  obtain ⟨hindexed, -, -, hholds⟩ := indexed_append ha.indexed hu hnone
  refine ⟨hindexed, ?_, ha.size, fun k hk => ?_⟩
  · rw [← ha.frame]
    rfl
  · obtain hk | rfl := (hholds k).mp hk
    · exact ha.value k hk
    · exact hvalue

theorem insertOrDecrease (ha : Alike n h h') (hs : Stored n h) (hu : u < n) (v : α) :
    (h.insertOrDecrease u v).1 = (h'.insertOrDecrease u v).1 ∧
      Alike n (h.insertOrDecrease u v).2 (h'.insertOrDecrease u v).2 := by
  -- the old value decides only about a key of the map, which has an entry
  have hold : (h'.contains u = true ∧ h'.value u ≤ v) ↔ h.contains u = true ∧ h.value u ≤ v := by
    rw [ha.contains_eq]
    exact and_congr_right fun hin => by rw [ha.value u (hs.holds u hin)]
  have ha₁ := ha.assign hu v
  have hposition : ((h.noteTie u v).assign u v).position u = h.position u := by
    rw [position, (frame_assign h u v).2.1, position]
  have hvalue : ((h.noteTie u v).assign u v).value u = ((h'.noteTie u v).assign u v).value u := by
    rw [value_assign (ha.indexed.values_size.symm ▸ hu), value_assign (ha.size.symm ▸ hu),
      if_pos rfl, if_pos rfl]
  simp only [TiedHeap.insertOrDecrease, hold]
  split
  · exact ⟨rfl, ha⟩
  · simp only [ha₁.position_eq, hposition]
    generalize (h.noteTie u v).assign u v = h₁ at *
    generalize (h'.noteTie u v).assign u v = h₁' at *
    cases hpos : h.position u with
    | none =>
        have hnone := hposition.trans hpos
        have ha₂ := ha₁.append hu hnone hvalue
        obtain ⟨-, hsize, -⟩ := indexed_append ha₁.indexed hu hnone
        dsimp only
        rw [ha₂.heap_eq]
        exact ⟨rfl, ha₂.siftUp (by omega)⟩
    | some i =>
        -- an entry that was left behind is moved by the value that it has in both maps
        obtain ⟨hlt, hkey⟩ := (ha.indexed.position_iff u i).mp hpos
        have hlt₁ := ((ha₁.indexed.position_iff u i).mp (hposition.trans hpos)).1
        rw [ha.value u ⟨i, hlt, hkey⟩]
        dsimp only
        split
        · exact ⟨rfl, ha₁.siftUp hlt₁⟩
        · exact ⟨rfl, ha₁.siftDown i⟩

theorem removeRoot (ha : Alike n h h') (hpos : 0 < h.heap.size) :
    Alike n h.removeRoot h'.removeRoot := by
  have hexchange := ha.exchange hpos (j := h.heap.size - 1) (by omega)
  obtain ⟨hindexed, hholds⟩ :=
    indexed_dropLast hexchange.indexed (by rw [size_exchange]; exact hpos)
  rw [removeRoot_eq hpos, removeRoot_eq (ha.heap_eq ▸ hpos), ha.heap_eq]
  have hdrop := hexchange.congr dropLast (fun _ _ => rfl) hindexed fun k hk => ((hholds k).mp hk).1
  exact hdrop.siftDown 0

theorem discard (ha : Alike n h h') : Option.Rel (Alike n) h.discard h'.discard := by
  rw [TiedHeap.discard, TiedHeap.discard, ha.heap_eq, ha.contains_eq, ha.keyAt_eq]
  split_ifs with hstale
  · exact .some (ha.removeRoot hstale.1)
  · exact .none

theorem release (ha : Alike n h h') (u : ℕ) : Alike n (h.release u) (h'.release u) := by
  refine ha.congr (·.release u) (fun _ _ => rfl) ?_ fun _ => id
  exact ⟨ha.indexed.values_size, ha.indexed.positions_size,
    Array.size_setIfInBounds.trans ha.indexed.present_size, ha.indexed.keyAt_lt,
    ha.indexed.position_iff⟩

theorem popMin (ha : Alike n h h') : h.popMin.1 = h'.popMin.1 ∧ Alike n h.popMin.2 h'.popMin.2 := by
  rw [TiedHeap.popMin, TiedHeap.popMin, ha.tied_eq]
  cases h.tied with
  | cons u tied =>
      refine ⟨rfl, release (ha.congr ({ · with tied := tied }) (fun _ _ => rfl) ?_ fun _ => id) u⟩
      exact ⟨ha.indexed.values_size, ha.indexed.positions_size, ha.indexed.present_size,
        ha.indexed.keyAt_lt, ha.indexed.position_iff⟩
  | nil =>
      rw [ha.heap_eq]
      have ha₁ := iterate_lockstep (R := Alike n) (fun _ _ ha => ha.discard) h.heap.size ha
      generalize iterate TiedHeap.discard h.heap.size h = h₁ at *
      generalize iterate TiedHeap.discard h.heap.size h' = h₁' at *
      simp only [ha₁.heap_eq, ha₁.keyAt_eq]
      split
      · exact ⟨rfl, ha₁⟩
      next hne =>
        rw [Array.isEmpty_iff_size_eq_zero] at hne
        exact ⟨rfl, (ha₁.removeRoot (by omega)).release _⟩

/-- Maps that were cleared differ in their values only. -/
theorem clear (hs : Stored n h) (hs' : Stored n h') : Alike n h.clear h'.clear := by
  refine ⟨(clear_vacant hs).1.indexed, ?_, hs'.indexed.values_size, ?_⟩
  · rw [clear_eq hs, clear_eq hs']
  · rintro k ⟨i, hlt, -⟩
    exact absurd hlt (Nat.not_lt_zero i)

end Alike

/-! ### Entries that stay -/

theorem holds_insertOrDecrease (hs : Stored n h) (hu : u < n) (v : α) (k : ℕ) :
    (h.insertOrDecrease u v).2.Holds k ↔ h.Holds k ∨ k = u := by
  obtain ⟨hassigned, hholds⟩ := indexed_assign hs.indexed u v
  have hposition : ((h.noteTie u v).assign u v).position u = h.position u := by
    rw [position, (frame_assign h u v).2.1, position]
  have hknown : h.Holds u → (h.Holds k ↔ h.Holds k ∨ k = u) := fun hu =>
    ⟨.inl, fun hk => hk.elim id fun heq => heq ▸ hu⟩
  rw [TiedHeap.insertOrDecrease]
  split
  next hold => exact hknown (hs.holds u hold.1)
  · simp only [hposition]
    generalize (h.noteTie u v).assign u v = h₁ at *
    cases hpos : h.position u with
    | none =>
        obtain ⟨happend, hsize, -, hholds'⟩ := indexed_append hassigned hu (hposition.trans hpos)
        dsimp only
        rw [(Rearranged.siftUp happend (by omega)).holds_iff, hholds', hholds]
    | some i =>
        have hlt := ((hassigned.position_iff u i).mp (hposition.trans hpos)).1
        rw [← hknown ⟨i, (hs.indexed.position_iff u i).mp hpos⟩, ← hholds]
        dsimp only
        split
        · exact (Rearranged.siftUp hassigned hlt).holds_iff k
        · exact (Rearranged.siftDown hassigned i).holds_iff k

/-- Keys of the map and keys on the stack have entries. -/
structure Stacked (n : ℕ) (h : TiedHeap α) : Prop extends Stored n h where
  tied_holds : ∀ k ∈ h.tied, h.Holds k

namespace Stacked

theorem clear (hs : Stored n h) : Stacked n h.clear :=
  ⟨(clear_vacant hs).1, fun _ hk => absurd hk List.not_mem_nil⟩

theorem insertOrDecrease (hs : Stacked n h) (hu : u < n) (v : α) :
    Stacked n (h.insertOrDecrease u v).2 := by
  refine ⟨hs.toStored.insertOrDecrease hu v, fun k hk => ?_⟩
  rw [holds_insertOrDecrease hs.toStored hu]
  by_cases hold : h.contains u = true ∧ h.value u ≤ v
  · rw [TiedHeap.insertOrDecrease, if_pos hold] at hk
    exact .inl (hs.tied_holds k hk)
  · have htied : (h.insertOrDecrease u v).2.tied = (h.noteTie u v).tied :=
      (congrArg tied (insertOrDecrease_frame hs.indexed hu v hold) :)
    rw [htied, noteTie] at hk
    split_ifs at hk
    · exact .inr (List.mem_singleton.mp hk)
    · obtain rfl | hk := List.mem_cons.mp hk
      · exact .inr rfl
      · exact .inl (hs.tied_holds k hk)
    · exact .inl (hs.tied_holds k hk)

/-- The key that is handed out has an entry, and no key gets a new one. -/
theorem popMin (hs : Stacked n h) : Stacked n h.popMin.2 ∧
    (∀ u, h.popMin.1 = some u → h.Holds u) ∧ ∀ k, h.popMin.2.Holds k → h.Holds k := by
  suffices hrest : (∀ u, h.popMin.1 = some u → h.Holds u) ∧
      (∀ k, h.popMin.2.Holds k → h.Holds k) ∧ ∀ k ∈ h.popMin.2.tied, h.popMin.2.Holds k from
    ⟨⟨hs.toStored.popMin, hrest.2.2⟩, hrest.1, hrest.2.1⟩
  rw [TiedHeap.popMin]
  cases htied : h.tied with
  | cons u tied =>
      have hentry := fun k (hk : k ∈ u :: tied) => hs.tied_holds k (htied ▸ hk)
      refine ⟨fun k hk => ?_, fun _ => id, fun k hk => hentry k (List.mem_cons_of_mem u hk)⟩
      exact hentry k (Option.some.inj hk ▸ List.mem_cons_self)
  | nil =>
      obtain ⟨hs₁, hframe⟩ := iterate_discard_frame hs.toStored h.heap.size
      have htied₁ : (iterate TiedHeap.discard h.heap.size h).tied = [] :=
        (congrArg tied hframe :).trans htied
      have hholds : ∀ k, (iterate TiedHeap.discard h.heap.size h).Holds k → h.Holds k := by
        refine (iterate_preserves (P := fun h₁ : TiedHeap α =>
          Indexed n h₁ ∧ ∀ k, h₁.Holds k → h.Holds k) ?_ _ _ ⟨hs.indexed, fun _ => id⟩).2
        rintro h₁ h₂ ⟨hindexed, hsub⟩ hstep
        rw [discard] at hstep
        split_ifs at hstep with hstale
        obtain rfl := Option.some.inj hstep
        obtain ⟨hindexed', -, hholds'⟩ := indexed_removeRoot hindexed hstale.1
        exact ⟨hindexed', fun k hk => hsub k ((hholds' k).mp hk).1⟩
      generalize iterate TiedHeap.discard h.heap.size h = h₁ at *
      dsimp only
      split
      · exact ⟨fun u hu => absurd hu (by simp), hholds, fun k hk => by simp [htied₁] at hk⟩
      next hne =>
        rw [Array.isEmpty_iff_size_eq_zero] at hne
        obtain ⟨-, hframe', hholds'⟩ := indexed_removeRoot hs₁.indexed (by omega)
        have htied₂ : h₁.removeRoot.tied = [] := (congrArg tied hframe' :).trans htied₁
        generalize h₁.removeRoot = h₂ at *
        refine ⟨fun u hu => ?_, fun k hk => hholds k ((hholds' k).mp hk).1, fun k hk => ?_⟩
        · exact hholds u ⟨0, by omega, Option.some.inj hu⟩
        · have hk' : k ∈ h₂.tied := hk
          simp [htied₂] at hk'

end Stacked

end Alike

end TiedHeap

end GraphInterval
