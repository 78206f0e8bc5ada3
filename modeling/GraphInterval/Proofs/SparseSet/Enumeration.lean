import GraphInterval.Proofs.Run
import GraphInterval.Proofs.SparseSet

/-!
# The enumeration that a history leaves

A sparse set goes through insertions, removals and clearings.  Seen from
outside it is a finite set of numbers below its capacity, enumerated without
repetition; whatever order the swaps leave behind, the two arrays remain
inverse permutations of the universe.  The order depends on the history, and
equality does not see it: the results of two histories are equal exactly if
they have the same capacity and the same members.
-/

namespace GraphInterval

namespace SparseSet

variable {n m : ℕ} {s t : SparseSet} {S T : Finset ℕ}

/-! ### The two arrays -/

theorem getElem?_elements {e i : ℕ} :
    s.elements[i]? = some e ↔ i < s.capacity ∧ s.elementAt i = e := by
  simp only [elementAt, capacity, Array.getD_eq_getD_getElem?]
  grind

theorem getElem?_positions (hs : s.Valid) {e i : ℕ} :
    s.positions[e]? = some i ↔ e < s.capacity ∧ s.indexOf e = i := by
  simp only [← hs.size_positions, indexOf, Array.getD_eq_getD_getElem?]
  grind

/-- An element is at an index exactly if the index is the position of the element. -/
theorem getElem?_positions_iff (hs : s.Valid) (e i : ℕ) :
    s.positions[e]? = some i ↔ s.elements[i]? = some e := by
  rw [getElem?_positions hs, getElem?_elements]
  constructor
  · intro h
    obtain ⟨he, rfl⟩ := h
    exact ⟨hs.indexOf_lt e he, hs.elementAt_indexOf e he⟩
  · intro h
    obtain ⟨hi, rfl⟩ := h
    exact ⟨hs.elementAt_lt i hi, hs.indexOf_elementAt i hi⟩

/-- The members and the other elements together are the universe. -/
theorem elements_perm (hs : s.Valid) : s.elements.toList.Perm (List.range s.capacity) := by
  -- With the boundary at the end, every element is a member.
  have hall := hs.resize le_rfl
  have hlist : toList { s with size := s.capacity } = s.elements.toList := by
    rw [toList, capacity, ← Array.length_toList, List.take_length]
  have hnodup := nodup_toList hall
  have hmem : ∀ e, e ∈ toList { s with size := s.capacity } ↔ e < s.capacity := by
    intro e
    rw [mem_toList hall, contains_iff hall]
    exact ⟨fun h => h.1, fun he => ⟨he, hs.indexOf_lt e he⟩⟩
  rw [hlist] at hnodup hmem
  apply (List.perm_ext_iff_of_nodup hnodup List.nodup_range).mpr
  intro e
  rw [hmem, List.mem_range]

/-! ### Operations and the set they act on -/

inductive Operation where
  | insert (element : ℕ)
  | remove (element : ℕ)
  | clear

/-- Only elements of the universe are inserted; any number may be removed. -/
def Operation.Inside (n : ℕ) : Operation → Prop
  | insert element => element < n
  | remove _ => True
  | clear => True

/-- Performs one operation; clearing answers nothing. -/
def perform (s : SparseSet) : Operation → Except Fault (Option Bool × SparseSet)
  | .insert element => do
      let (changed, s) ← s.tryInsert element
      return (some changed, s)
  | .remove element =>
      let (changed, s) := s.remove element
      return (some changed, s)
  | .clear => return (none, s.clear)

/-- What an operation answers on a finite set, and the set afterwards. -/
inductive Step (S : Finset ℕ) : Operation → Option Bool → Finset ℕ → Prop where
  | insert {element : ℕ} {changed : Bool} : (changed = true ↔ Insert.insert element S ≠ S) →
      Step S (.insert element) (some changed) (Insert.insert element S)
  | remove {element : ℕ} {changed : Bool} : (changed = true ↔ S.erase element ≠ S) →
      Step S (.remove element) (some changed) (S.erase element)
  | clear : Step S .clear none ∅

/-- The sets that a history starts from. -/
inductive Initial (n : ℕ) : Finset ℕ → SparseSet → Prop where
  | empty : Initial n ∅ (empty n)
  | full : Initial n (Finset.range n) (full n)

/-- The numbers of `S`, all below `n`, are enumerated. -/
structure Enumerates (n : ℕ) (S : Finset ℕ) (s : SparseSet) : Prop where
  capacity_eq : s.capacity = n
  elements_perm : s.elements.toList.Perm (List.range n)
  size_positions : s.positions.size = n
  positions_iff : ∀ e i : ℕ, s.positions[e]? = some i ↔ s.elements[i]? = some e
  subset_range : S ⊆ Finset.range n
  size_le : s.size ≤ n
  size_eq : s.size = S.card
  isEmpty_iff : s.isEmpty = true ↔ S = ∅
  contains_iff : ∀ e, s.contains e = true ↔ e ∈ S
  nodup : s.toList.Nodup
  mem_iff : ∀ e, e ∈ s.toList ↔ e ∈ S

/-! ### One operation -/

/-- A valid sparse set with the members `S`; all else about it follows. -/
structure Represents (n : ℕ) (S : Finset ℕ) (s : SparseSet) : Prop where
  valid : s.Valid
  capacity_eq : s.capacity = n
  contains_iff : ∀ e, s.contains e = true ↔ e ∈ S

theorem Represents.members_eq (h : Represents n S s) : s.members = S := by
  ext e
  rw [mem_members h.valid, h.contains_iff]

theorem Represents.enumerates (h : Represents n S s) : Enumerates n S s := by
  have hcapacity := h.capacity_eq
  have hcard : s.size = S.card := by rw [← h.members_eq, card_members h.valid]
  constructor
  · exact hcapacity
  · exact hcapacity ▸ elements_perm h.valid
  · exact h.valid.size_positions.trans hcapacity
  · exact getElem?_positions_iff h.valid
  · intro e he
    rw [Finset.mem_range, ← hcapacity]
    exact lt_capacity_of_contains h.valid ((h.contains_iff e).mpr he)
  · exact h.valid.size_le.trans_eq hcapacity
  · exact hcard
  · rw [isEmpty, beq_iff_eq, hcard, Finset.card_eq_zero]
  · exact h.contains_iff
  · exact nodup_toList h.valid
  · intro e
    rw [mem_toList h.valid, h.contains_iff]

theorem Initial.represents (h : Initial n S s) : Represents n S s := by
  cases h with
  | empty =>
      constructor
      · exact valid_empty n
      · exact capacity_empty n
      · simp
  | full =>
      constructor
      · exact valid_full n
      · exact capacity_empty n
      · intro e
        rw [contains_full, Finset.mem_range]

theorem Represents.insert (h : Represents n S s) {element : ℕ} (helement : element < n) :
    Represents n (Insert.insert element S) (s.insert element) := by
  constructor
  · exact h.valid.insert element
  · rw [capacity_insert, h.capacity_eq]
  · intro e
    rw [contains_insert h.valid, h.capacity_eq, h.contains_iff, Finset.mem_insert]
    simp only [helement, and_true]

theorem Represents.erase (h : Represents n S s) (element : ℕ) :
    Represents n (S.erase element) (s.erase element) := by
  constructor
  · exact h.valid.erase element
  · rw [capacity_erase, h.capacity_eq]
  · intro e
    rw [contains_erase h.valid, h.contains_iff, Finset.mem_erase]

/-- Clearing keeps the order of the arrays, which may be any by then. -/
theorem Represents.clear (h : Represents n S s) : Represents n ∅ s.clear := by
  have hvalid : s.clear.Valid := h.valid.resize (Nat.zero_le s.capacity)
  constructor
  · exact hvalid
  · exact h.capacity_eq
  · intro e
    rw [SparseSet.contains_iff hvalid]
    simp [SparseSet.clear]

theorem Represents.perform (h : Represents n S s) {operation : Operation}
    (hop : operation.Inside n) :
    ∃ answer s' S', s.perform operation = .ok (answer, s') ∧ Step S operation answer S' ∧
      Represents n S' s' := by
  cases operation with
  | insert element =>
      have helement : element < n := hop
      have hrun : s.perform (.insert element) =
          .ok (some (!s.contains element), s.insert element) := by
        rw [SparseSet.perform, tryInsert, h.capacity_eq, if_pos helement]
        rfl
      have hchanged : (!s.contains element) = true ↔ Insert.insert element S ≠ S := by
        rw [ne_eq, Finset.insert_eq_self, ← h.contains_iff, Bool.not_eq_true', Bool.not_eq_true]
      exact ⟨_, _, _, hrun, .insert hchanged, h.insert helement⟩
  | remove element =>
      have hchanged : s.contains element = true ↔ S.erase element ≠ S := by
        rw [ne_eq, Finset.erase_eq_self, not_not, h.contains_iff]
      exact ⟨_, _, _, rfl, .remove hchanged, h.erase element⟩
  | clear => exact ⟨_, _, _, rfl, .clear, h.clear⟩

/-- Equality compares what the two sparse sets stand for. -/
theorem Represents.beq_iff (h : Represents n S s) (k : Represents m T t) :
    (s == t) = true ↔ n = m ∧ S = T := by
  rw [SparseSet.beq_iff h.valid k.valid, h.capacity_eq, k.capacity_eq, Finset.ext_iff]
  simp only [Bool.eq_iff_iff, h.contains_iff, k.contains_iff]

/-! ### Two histories -/

/-- From the empty or the full set on, a history succeeds, its answers tell which operations changed
the set, and the members are enumerated.  The results of two such histories, of any capacities, are
equal exactly if the capacities and the members are. -/
theorem performEach_enumerates (n m : ℕ) (s t : SparseSet) (S T : Finset ℕ)
    (operations others : List Operation) (hs : Initial n S s) (ht : Initial m T t)
    (hops : ∀ operation ∈ operations, operation.Inside n)
    (hothers : ∀ operation ∈ others, operation.Inside m) :
    ∃ answers s' S', performEach perform s operations = .ok (answers, s') ∧
      Traces Step S operations answers S' ∧ Enumerates n S' s' ∧
      ∃ answers' t' T', performEach perform t others = .ok (answers', t') ∧
        Traces Step T others answers' T' ∧ Enumerates m T' t' ∧
        ((s' == t') = true ↔ n = m ∧ S' = T') := by
  obtain ⟨answers, s', S', hrun, hsteps, hrep⟩ :=
    performEach_traces Step (Represents n) (fun h hop => h.perform hop) hs.represents
      operations hops
  obtain ⟨answers', t', T', hrun', hsteps', hrep'⟩ :=
    performEach_traces Step (Represents m) (fun h hop => h.perform hop) ht.represents
      others hothers
  exact ⟨answers, s', S', hrun, hsteps, hrep.enumerates, answers', t', T', hrun', hsteps',
    hrep'.enumerates, hrep.beq_iff hrep'⟩

/-- Insertions after a clearing enumerate `{1, 3}` in another order than removals from the full set
do; both sets are equal. -/
theorem performEach_enumerates_scrambled :
    let operations := [.insert 2, .insert 3, .remove 7, .clear, .insert 1, .insert 3, .insert 3]
    let others := [.remove 0, .remove 2, .remove 0]
    (∀ operation ∈ operations, operation.Inside 4) ∧
      (∀ operation ∈ others, operation.Inside 4) ∧
      ∃ s S, performEach perform (empty 4) operations = .ok ([some true, some true, some false, none,
          some true, some true, some false], s) ∧ Enumerates 4 S s ∧ s.toList = [1, 3] ∧
        ∃ t T, performEach perform (full 4) others = .ok ([some true, some true, some false], t) ∧
          Enumerates 4 T t ∧ t.toList = [3, 1] ∧ (s == t) = true ∧ S = T := by
  intro operations others
  have hops : ∀ operation ∈ operations, operation.Inside 4 := by
    simp [operations, Operation.Inside]
  have hothers : ∀ operation ∈ others, operation.Inside 4 := by
    simp [others, Operation.Inside]
  obtain ⟨answers, s, S, hrun, -, hs, answers', t, T, hrun', -, ht, heq⟩ :=
    performEach_enumerates 4 4 (empty 4) (full 4) ∅ (Finset.range 4) operations others .empty .full
      hops hothers
  have hlist : (performEach perform (empty 4) operations).map (fun r => (r.1, r.2.toList)) =
      .ok ([some true, some true, some false, none, some true, some true, some false], [1, 3]) := by
    decide +kernel
  have hlist' : (performEach perform (full 4) others).map (fun r => (r.1, r.2.toList)) =
      .ok ([some true, some true, some false], [3, 1]) := by decide +kernel
  rw [hrun] at hlist
  rw [hrun'] at hlist'
  obtain ⟨rfl, hlist⟩ := Prod.mk.inj (Except.ok.inj hlist)
  obtain ⟨rfl, hlist'⟩ := Prod.mk.inj (Except.ok.inj hlist')
  have hST : S = T := by
    ext e
    rw [← hs.mem_iff, ← ht.mem_iff, hlist, hlist']
    simp [or_comm]
  exact ⟨hops, hothers, s, S, hrun, hs, hlist, t, T, hrun', ht, hlist', heq.mpr ⟨rfl, hST⟩, hST⟩

end SparseSet

end GraphInterval
