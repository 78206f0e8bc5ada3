import GraphInterval.Proofs.GraphVar.Basic
import GraphInterval.Proofs.Scalar.Lawful
import GraphInterval.Proofs.Table
import GraphInterval.Proofs.Tree.OneTree
import Mathlib.Combinatorics.Enumerative.DoubleCounting

/-!
# The record of a one-tree

A one-tree under construction keeps its edges in several ways at once: as a
list, as marks of pairs of nodes, as degrees, and as the sum of their costs.
All of them describe one set of edges, and adding an edge or clearing the
record keeps them together.  With exact numbers the sum of the costs depends
on that set alone.
-/

namespace GraphInterval

/-! ### The graph and the costs -/

namespace GraphVar

/-- An undirected graph over `n` nodes; loops are allowed. -/
structure IsUndirected (n : ℕ) (g : GraphVar) : Prop where
  valid : g.Valid
  order_eq : g.order = n
  undirected : g.directed = false

/-- An undirected graph without loops over `n` nodes. -/
structure IsSimple (n : ℕ) (g : GraphVar) : Prop where
  valid : g.Valid
  order_eq : g.order = n
  undirected : g.directed = false
  loopless : ∀ v, g.isPotential v v = false

/-- The mandatory edges without their orders. -/
def mandatoryEdges (g : GraphVar) : Set (Sym2 ℕ) :=
  { e | ∃ a b, e = s(a, b) ∧ g.isMandatory a b = true }

/-- The possible edges without their orders. -/
def possibleEdges (g : GraphVar) : Set (Sym2 ℕ) :=
  { e | ∃ a b, e = s(a, b) ∧ g.isPotential a b = true }

variable {n : ℕ} {g g' : GraphVar} {a b : ℕ}

theorem Valid.loopless (hg : g.Valid) (h : ∀ v < g.order, g.isPotential v v = false) (v : ℕ) :
    g.isPotential v v = false := by
  rw [Bool.eq_false_iff]
  intro hv
  exact absurd ((h v (hg.lt_order hv).1).symm.trans hv) (by simp)

namespace IsUndirected

theorem isMandatory_symm (hg : g.IsUndirected n) (h : g.isMandatory a b = true) :
    g.isMandatory b a = true :=
  hg.valid.lower.symm (hg.valid.directed_eq.trans hg.undirected) h

theorem isPotential_symm (hg : g.IsUndirected n) (h : g.isPotential a b = true) :
    g.isPotential b a = true :=
  hg.valid.upper.symm hg.undirected h

theorem mem_mandatoryEdges (hg : g.IsUndirected n) :
    s(a, b) ∈ g.mandatoryEdges ↔ g.isMandatory a b = true := by
  constructor
  · rintro ⟨x, y, heq, hxy⟩
    obtain ⟨rfl, rfl⟩ | ⟨rfl, rfl⟩ := Sym2.eq_iff.mp heq
    · exact hxy
    · exact hg.isMandatory_symm hxy
  · intro h
    exact ⟨a, b, rfl, h⟩

theorem mem_possibleEdges (hg : g.IsUndirected n) :
    s(a, b) ∈ g.possibleEdges ↔ g.isPotential a b = true := by
  constructor
  · rintro ⟨x, y, heq, hxy⟩
    obtain ⟨rfl, rfl⟩ | ⟨rfl, rfl⟩ := Sym2.eq_iff.mp heq
    · exact hxy
    · exact hg.isPotential_symm hxy
  · intro h
    exact ⟨a, b, rfl, h⟩

theorem lt_of_isPotential (hg : g.IsUndirected n) (h : g.isPotential a b = true) :
    a < n ∧ b < n :=
  hg.order_eq ▸ hg.valid.lt_order h

theorem narrows (hg : g.IsUndirected n) (h : Narrows g g') : g'.IsUndirected n :=
  ⟨h.valid hg.valid, (h.order hg.valid).trans hg.order_eq,
    (h.directed hg.valid).trans hg.undirected⟩

end IsUndirected

namespace IsSimple

theorem isUndirected (hg : g.IsSimple n) : g.IsUndirected n :=
  ⟨hg.valid, hg.order_eq, hg.undirected⟩

theorem isMandatory_symm (hg : g.IsSimple n) (h : g.isMandatory a b = true) :
    g.isMandatory b a = true :=
  hg.isUndirected.isMandatory_symm h

theorem isPotential_symm (hg : g.IsSimple n) (h : g.isPotential a b = true) :
    g.isPotential b a = true :=
  hg.isUndirected.isPotential_symm h

theorem mem_mandatoryEdges (hg : g.IsSimple n) :
    s(a, b) ∈ g.mandatoryEdges ↔ g.isMandatory a b = true :=
  hg.isUndirected.mem_mandatoryEdges

theorem mem_possibleEdges (hg : g.IsSimple n) :
    s(a, b) ∈ g.possibleEdges ↔ g.isPotential a b = true :=
  hg.isUndirected.mem_possibleEdges

theorem ne_of_isPotential (hg : g.IsSimple n) (h : g.isPotential a b = true) : a ≠ b := by
  rintro rfl
  exact absurd ((hg.loopless a).symm.trans h) (by simp)

theorem lt_of_isPotential (hg : g.IsSimple n) (h : g.isPotential a b = true) : a < n ∧ b < n :=
  hg.isUndirected.lt_of_isPotential h

theorem narrows (hg : g.IsSimple n) (h : Narrows g g') : g'.IsSimple n := by
  obtain ⟨hvalid, horder, hundirected⟩ := hg.isUndirected.narrows h
  refine ⟨hvalid, horder, hundirected, fun v => ?_⟩
  rw [Bool.eq_false_iff]
  intro hv
  exact hg.ne_of_isPotential (h.isPotential hg.valid hv) rfl

end IsSimple

end GraphVar

/-- Every cost that is read from the table compares with itself. -/
def Table.Comparable {α : Type} [Scalar α] (costs : Table α) : Prop :=
  ∀ a b, costs.cost a b ≤ costs.cost a b

theorem Table.comparable_exact (costs : Table Exact) : costs.Comparable :=
  fun _ _ => Exact.le_refl _

/-- Outside of the table the cost zero is read. -/
theorem Table.Square.comparable {α : Type} [Scalar α] [LawfulScalar α] {n : ℕ} {costs : Table α}
    (hcosts : costs.Square n) (hself : ∀ a < n, ∀ b < n, costs.cost a b ≤ costs.cost a b) :
    costs.Comparable := by
  intro a b
  by_cases hab : a < n ∧ b < n
  · exact hself a hab.1 b hab.2
  · have hsize : (costs.row a).size ≤ b := by
      by_cases ha : a < n
      · rw [hcosts.row_eq a ha]
        omega
      · rw [row, Array.getD_eq_getD_getElem?, Array.getElem?_eq_none (hcosts.size_eq ▸ by omega)]
        exact Nat.zero_le b
    have hzero : costs.cost a b = Scalar.ofInt 0 := by
      rw [cost, entry, Array.getD_eq_getD_getElem?, Array.getElem?_eq_none hsize]
      rfl
    rw [hzero]
    exact LawfulScalar.zero_le_zero

/-- The table holds the costs of the edges between `n` nodes. -/
structure Table.Charges (n : ℕ) (cost : Sym2 ℕ → ℚ) (costs : Table Exact) : Prop where
  square : costs.Square n
  cost_eq : ∀ a < n, ∀ b < n, costs.cost a b = .number (cost s(a, b))

namespace OneTree

/-! ### Marks -/

section Sized

variable {α : Type} {n : ℕ} {t : OneTree α} {a b : ℕ}

/-- The set of edges. -/
def edgeSet (t : OneTree α) : Finset (Sym2 ℕ) :=
  (t.edges.toList.map fun e => s(e.1, e.2)).toFinset

theorem mem_edgeSet {e : Sym2 ℕ} : e ∈ t.edgeSet ↔ ∃ p ∈ t.edges.toList, s(p.1, p.2) = e := by
  rw [edgeSet, List.mem_toFinset, List.mem_map]

/-- The tables have the right sizes, and no pair of nodes is marked without an edge. -/
structure Sized (n : ℕ) (t : OneTree α) : Prop where
  order_eq : t.order = n
  adjacency_size_eq : t.adjacency.size = n * n
  degrees_size_eq : t.degrees.size = n
  marked : ∀ i, t.adjacency.getD i false = true →
    ∃ e ∈ t.edges.toList, i = t.slot e.1 e.2 ∨ i = t.slot e.2 e.1

theorem getD_mark (t : OneTree α) (a b : ℕ) (present : Bool) (i : ℕ) :
    (t.mark a b present).adjacency.getD i false =
      if i < t.adjacency.size ∧ (i = t.slot a b ∨ i = t.slot b a) then present
      else t.adjacency.getD i false := by
  simp only [mark, Array.getD_eq_getD_getElem?, Array.getElem?_setIfInBounds,
    Array.size_setIfInBounds]
  by_cases hi : i < t.adjacency.size
  · by_cases hba : t.slot b a = i
    · simp [hba, hi]
    · by_cases hab : t.slot a b = i
      · simp [hab, hba, hi]
      · simp [hab, hba, hi, Ne.symm hab, Ne.symm hba]
  · grind

theorem sized_empty [Scalar α] (n : ℕ) : Sized n (empty n : OneTree α) := by
  refine ⟨rfl, by simp [empty], by simp [empty], fun i hi => ?_⟩
  simp only [empty, Array.getD_eq_getD_getElem?, Array.getElem?_replicate] at hi
  split at hi <;> simp at hi

theorem Sized.addEdge [Scalar α] (ht : t.Sized n) (a b : ℕ) (c : α) : (t.addEdge a b c).Sized n := by
  refine ⟨ht.order_eq, ?_, ?_, fun i hi => ?_⟩
  · simpa [OneTree.addEdge, mark] using ht.adjacency_size_eq
  · simpa [OneTree.addEdge] using ht.degrees_size_eq
  · have hi' : (t.mark a b true).adjacency.getD i false = true := hi
    rw [getD_mark] at hi'
    simp only [OneTree.addEdge, Array.toList_push, List.mem_append, List.mem_singleton]
    split at hi'
    next h => exact ⟨(a, b), .inr rfl, h.2⟩
    next =>
      obtain ⟨e, he, hslot⟩ := ht.marked i hi'
      exact ⟨e, .inl he, hslot⟩

/-- Removing the marks of the edges of a list. -/
theorem foldl_mark_false (edges : List Edge) (t : OneTree α) :
    (edges.foldl (fun t (e : Edge) => t.mark e.1 e.2 false) t).order = t.order ∧
      (edges.foldl (fun t (e : Edge) => t.mark e.1 e.2 false) t).adjacency.size =
        t.adjacency.size ∧
      ∀ i, (edges.foldl (fun t (e : Edge) => t.mark e.1 e.2 false) t).adjacency.getD i false =
        true → t.adjacency.getD i false = true ∧
          ∀ e ∈ edges, i ≠ t.slot e.1 e.2 ∧ i ≠ t.slot e.2 e.1 := by
  induction edges generalizing t with
  | nil => simp
  | cons edge edges ih =>
      obtain ⟨horder, hsize, hmarks⟩ := ih (t.mark edge.1 edge.2 false)
      refine ⟨horder, hsize.trans (by simp [mark]), fun i hi => ?_⟩
      obtain ⟨hold, hrest⟩ := hmarks i hi
      rw [getD_mark] at hold
      split at hold
      next => exact absurd hold (by simp)
      next hslot =>
        have hlt : i < t.adjacency.size := by
          by_contra hge
          simp [hge] at hold
        refine ⟨hold, fun e he => ?_⟩
        obtain rfl | he := List.mem_cons.mp he
        · exact not_or.mp fun h => hslot ⟨hlt, h⟩
        · exact hrest e he

theorem clear_spec [Scalar α] (ht : t.Sized n) :
    t.clear.Sized n ∧ t.clear.edges = #[] ∧ (∀ i, t.clear.adjacency.getD i false = false) ∧
      t.clear.degrees = Array.replicate n 0 := by
  have hclear : t.clear =
      { t.edges.toList.foldl (fun t (e : Edge) => t.mark e.1 e.2 false) t with
        degrees := Array.replicate t.degrees.size 0
        edges := #[]
        cost := Scalar.ofInt 0 } := by
    rw [clear, ← Array.foldl_toList]
  obtain ⟨horder, hsize, hmarks⟩ := foldl_mark_false t.edges.toList t
  have hnone : ∀ i, t.clear.adjacency.getD i false = false := by
    intro i
    rw [Bool.eq_false_iff]
    intro hi
    rw [hclear] at hi
    obtain ⟨hold, hrest⟩ := hmarks i hi
    obtain ⟨e, he, hslot⟩ := ht.marked i hold
    obtain ⟨hne, hne'⟩ := hrest e he
    exact hslot.elim hne hne'
  have hdegrees : t.clear.degrees = Array.replicate n 0 := by
    rw [clear, ht.degrees_size_eq]
  refine ⟨⟨?_, ?_, ?_, fun i hi => absurd ((hnone i).symm.trans hi) (by simp)⟩, rfl, hnone,
    hdegrees⟩
  · rw [hclear]
    exact horder.trans ht.order_eq
  · rw [hclear]
    exact hsize.trans ht.adjacency_size_eq
  · rw [hdegrees, Array.size_replicate]

/-- Clearing leaves nothing behind. -/
theorem clear_eq_empty [Scalar α] (ht : t.Sized n) : t.clear = empty n := by
  obtain ⟨hsized, hedges, hmarks, hdegrees⟩ := clear_spec ht
  have hadjacency : t.clear.adjacency = Array.replicate (n * n) false :=
    Array.ext (hsized.adjacency_size_eq.trans Array.size_replicate.symm) fun i hi _ => by
      have hfalse := hmarks i
      rw [Array.getD_eq_getD_getElem?, Array.getElem?_eq_getElem hi] at hfalse
      rw [Array.getElem_replicate]
      exact hfalse
  have horder := hsized.order_eq
  have hcost : t.clear.cost = Scalar.ofInt 0 := rfl
  generalize t.clear = u at *
  cases u
  simp only at hedges hadjacency hdegrees hcost horder
  rw [hedges, hadjacency, hdegrees, hcost, horder, empty]

theorem slot_inj (hn : t.order = n) {c d : ℕ} (hb : b < n) (hd : d < n) :
    t.slot a b = t.slot c d ↔ a = c ∧ b = d := by
  rw [slot, slot, hn]
  constructor
  · intro heq
    have hac : a = c := by
      have hdiv := congrArg (· / n) heq
      have hn : 0 < n := by omega
      simpa [Nat.mul_comm _ n, Nat.mul_add_div hn, Nat.div_eq_of_lt hb,
        Nat.div_eq_of_lt hd] using hdiv
    subst hac
    exact ⟨rfl, by omega⟩
  · rintro ⟨rfl, rfl⟩
    rfl

end Sized

/-! ### Sets of edges -/

section Recorded

variable {α : Type} [Scalar α] {n : ℕ} {costs : Table α} {t : OneTree α} {a b v : ℕ}

/-- The record is that of its edges, whose costs are summed up in their order. -/
structure Recorded (n : ℕ) (costs : Table α) (t : OneTree α) : Prop where
  sized : t.Sized n
  inside : ∀ e ∈ t.edges.toList, e.1 < n ∧ e.2 < n ∧ e.1 ≠ e.2
  nodup : (t.edges.toList.map fun e => s(e.1, e.2)).Nodup
  contains_iff : ∀ a < n, ∀ b < n, t.contains a b = true ↔ s(a, b) ∈ t.edgeSet
  degree_eq : ∀ v < n, t.degree v = (t.edgeSet.filter (v ∈ ·)).card
  cost_eq : t.cost = Scalar.sum (t.edges.toList.map fun e => costs.cost e.1 e.2)

theorem edgeSet_addEdge (t : OneTree α) (a b : ℕ) (c : α) :
    (t.addEdge a b c).edgeSet = insert s(a, b) t.edgeSet := by
  ext e
  simp only [mem_edgeSet, addEdge, Array.toList_push, List.mem_append, List.mem_singleton,
    Finset.mem_insert]
  constructor
  · rintro ⟨p, hp | rfl, rfl⟩
    · exact .inr ⟨p, hp, rfl⟩
    · exact .inl rfl
  · rintro (rfl | ⟨p, hp, rfl⟩)
    · exact ⟨(a, b), .inr rfl, rfl⟩
    · exact ⟨p, .inl hp, rfl⟩

theorem contains_addEdge {c : α} {x y : ℕ} (ht : t.Sized n) (ha : a < n) (hb : b < n)
    (hx : x < n) (hy : y < n) :
    (t.addEdge a b c).contains x y = true ↔ s(x, y) = s(a, b) ∨ t.contains x y = true := by
  have hslots : (x = a ∧ y = b ∨ x = b ∧ y = a) ↔
      (t.slot x y = t.slot a b ∨ t.slot x y = t.slot b a) := by
    rw [slot_inj ht.order_eq hy hb, slot_inj ht.order_eq hy ha]
  have hlt : t.slot x y < t.adjacency.size := by
    rw [ht.adjacency_size_eq, slot, ht.order_eq]
    calc x * n + y < x * n + n := Nat.add_lt_add_left hy _
      _ = (x + 1) * n := by ring
      _ ≤ n * n := Nat.mul_le_mul_right n hx
  rw [Sym2.eq_iff, hslots]
  change (t.mark a b true).adjacency.getD (t.slot x y) false = true ↔ _
  rw [getD_mark, contains]
  by_cases h : t.slot x y = t.slot a b ∨ t.slot x y = t.slot b a
  · rw [if_pos ⟨hlt, h⟩]
    exact iff_of_true rfl (.inl h)
  · rw [if_neg fun h' => h h'.2]
    exact (or_iff_right h).symm

theorem degree_addEdge (t : OneTree α) (c : α) (ha : a < t.degrees.size)
    (hb : b < t.degrees.size) (hab : a ≠ b) (v : ℕ) :
    (t.addEdge a b c).degree v = t.degree v + if v = a ∨ v = b then 1 else 0 := by
  simp only [degree, addEdge, Array.getD_eq_getD_getElem?, Array.getElem?_modify]
  by_cases hva : v = a
  · subst hva
    simp [ha, hab.symm]
  · by_cases hvb : v = b
    · subst hvb
      simp [hb, hab]
    · simp [hva, hvb, Ne.symm hva, Ne.symm hvb]

theorem recorded_clear (costs : Table α) (ht : t.Sized n) :
    t.clear.Recorded n costs ∧ t.clear.edgeSet = ∅ := by
  obtain ⟨hsized, hedges, hmarks, hdegrees⟩ := clear_spec ht
  have hempty : t.clear.edgeSet = ∅ := by
    rw [edgeSet, hedges]
    rfl
  refine ⟨⟨hsized, by simp [hedges], by simp [hedges], fun a _ b _ => ?_, fun v hv => ?_, ?_⟩,
    hempty⟩
  · rw [contains, hmarks, hempty]
    simp
  · rw [degree, hdegrees, hempty]
    simp [hv]
  · rw [hedges]
    rfl

/-- Adding a new edge adds it to every part of the record. -/
theorem Recorded.addEdge (ht : t.Recorded n costs) (ha : a < n) (hb : b < n) (hab : a ≠ b)
    (hnew : s(a, b) ∉ t.edgeSet) : (t.addEdge a b (costs.cost a b)).Recorded n costs := by
  have hsized := ht.sized
  have hsizeD := hsized.degrees_size_eq
  refine ⟨hsized.addEdge a b _, fun e he => ?_, ?_, fun x hx y hy => ?_, fun v hv => ?_, ?_⟩
  · simp only [OneTree.addEdge, Array.toList_push, List.mem_append, List.mem_singleton] at he
    obtain he | rfl := he
    · exact ht.inside e he
    · exact ⟨ha, hb, hab⟩
  · simp only [OneTree.addEdge, Array.toList_push, List.map_append, List.map_cons, List.map_nil]
    apply List.nodup_append.mpr
    refine ⟨ht.nodup, by simp, fun e he f hf => ?_⟩
    rw [List.mem_singleton] at hf
    rintro rfl
    rw [hf] at he
    exact hnew (List.mem_toFinset.mpr he)
  · rw [edgeSet_addEdge, Finset.mem_insert, ← ht.contains_iff x hx y hy]
    exact contains_addEdge hsized ha hb hx hy
  · rw [degree_addEdge t _ (hsizeD ▸ ha) (hsizeD ▸ hb) hab, ht.degree_eq v hv, edgeSet_addEdge,
      Finset.filter_insert]
    by_cases hv' : v ∈ s(a, b)
    · have hmem : s(a, b) ∉ t.edgeSet.filter (v ∈ ·) := fun h => hnew (Finset.mem_filter.mp h).1
      rw [if_pos hv', if_pos (Sym2.mem_iff.mp hv'), Finset.card_insert_of_notMem hmem]
    · rw [if_neg hv', if_neg fun h => hv' (Sym2.mem_iff.mpr h)]
      rfl
  · simp only [OneTree.addEdge, Array.toList_push, List.map_append, List.map_cons, List.map_nil,
      Scalar.sum, List.foldl_append, List.foldl_cons, List.foldl_nil]
    rw [ht.cost_eq, Scalar.sum]

theorem Recorded.card_edgeSet (ht : t.Recorded n costs) : t.edgeSet.card = t.edges.size := by
  rw [edgeSet, List.toFinset_card_of_nodup ht.nodup, List.length_map, Array.length_toList]

/-- Every edge counts for the degrees of its two endpoints. -/
theorem Recorded.sum_degree (ht : t.Recorded n costs) :
    ∑ v ∈ Finset.range n, t.degree v = 2 * t.edges.size := by
  have htwo : ∀ e ∈ t.edgeSet, ((Finset.range n).filter (· ∈ e)).card = 2 := by
    intro e he
    obtain ⟨p, hp, rfl⟩ := mem_edgeSet.mp he
    obtain ⟨ha, hb, hab⟩ := ht.inside p hp
    have hends : (Finset.range n).filter (· ∈ s(p.1, p.2)) = {p.1, p.2} := by
      ext v
      simp only [Finset.mem_filter, Finset.mem_range, Sym2.mem_iff, Finset.mem_insert,
        Finset.mem_singleton, and_iff_right_iff_imp]
      rintro (rfl | rfl) <;> assumption
    rw [hends, Finset.card_pair hab]
  calc ∑ v ∈ Finset.range n, t.degree v
      = ∑ v ∈ Finset.range n, (t.edgeSet.filter (v ∈ ·)).card :=
        Finset.sum_congr rfl fun v hv => ht.degree_eq v (Finset.mem_range.mp hv)
    _ = ∑ e ∈ t.edgeSet, ((Finset.range n).filter (· ∈ e)).card :=
        Finset.sum_card_bipartiteAbove_eq_sum_card_bipartiteBelow _
    _ = ∑ _e ∈ t.edgeSet, 2 := Finset.sum_congr rfl htwo
    _ = 2 * t.edges.size := by
        rw [Finset.sum_const, ht.card_edgeSet, smul_eq_mul, mul_comm]

theorem Recorded.isClosed (ht : t.Recorded n costs) : t.isClosed = true := by
  rw [OneTree.isClosed, Array.all_eq_true_iff_forall_mem]
  intro e he
  obtain ⟨ha, hb, -⟩ := ht.inside e (Array.mem_toList_iff.mpr he)
  simp [ht.sized.order_eq, ha, hb]

end Recorded

section Represents

variable {n : ℕ} {cost : Sym2 ℕ → ℚ} {costs : Table Exact} {t : OneTree Exact}

/-- The record is that of its set of edges. -/
structure Represents (n : ℕ) (cost : Sym2 ℕ → ℚ) (t : OneTree Exact) : Prop where
  sized : t.Sized n
  inside : ∀ e ∈ t.edges.toList, e.1 < n ∧ e.2 < n ∧ e.1 ≠ e.2
  nodup : (t.edges.toList.map fun e => s(e.1, e.2)).Nodup
  contains_iff : ∀ a < n, ∀ b < n, t.contains a b = true ↔ s(a, b) ∈ t.edgeSet
  degree_eq : ∀ v < n, t.degree v = (t.edgeSet.filter (v ∈ ·)).card
  cost_eq : t.cost = .number (totalCost cost t.edgeSet)

/-- Exact numbers are summed up without regard to their order. -/
theorem Recorded.represents (ht : t.Recorded n costs) (hcosts : costs.Charges n cost) :
    t.Represents n cost := by
  refine ⟨ht.sized, ht.inside, ht.nodup, ht.contains_iff, ht.degree_eq, ?_⟩
  have hnumbers : (t.edges.toList.map fun e => costs.cost e.1 e.2) =
      (t.edges.toList.map fun e => cost s(e.1, e.2)).map Exact.number := by
    rw [List.map_map]
    apply List.map_congr_left
    intro e he
    obtain ⟨ha, hb, -⟩ := ht.inside e he
    exact hcosts.cost_eq e.1 ha e.2 hb
  rw [ht.cost_eq, hnumbers, Exact.sum_number, totalCost, edgeSet, List.sum_toFinset _ ht.nodup,
    List.map_map]
  rfl

end Represents

end OneTree

end GraphInterval
