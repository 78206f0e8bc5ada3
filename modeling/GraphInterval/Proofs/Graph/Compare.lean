import GraphInterval.Proofs.Graph.Basic

/-!
# Comparing and counting graphs

The subgraph test and equality of two valid graphs are statements about their
shapes, and the number of edges counts the pairs of the edge relation, of an
undirected graph those in one order.  Every graph that the operations build
from an empty one is valid.
-/

namespace GraphInterval

namespace Graph

variable {g h : Graph}

/-! ### Subgraphs and equality -/

theorem isSubgraphOf_iff (hg : g.Valid) : g.isSubgraphOf h = true ↔ g.shape ≤ h.shape := by
  simp only [isSubgraphOf, Bool.and_eq_true, List.all_eq_true, mem_nodes hg,
    mem_successors hg]
  constructor
  · rintro ⟨hnode, hedge⟩
    exact ⟨hnode, fun a b hab => hedge a (hg.source hab) b hab⟩
  · rintro ⟨hnode, hedge⟩
    exact ⟨hnode, fun a _ b hab => hedge a b hab⟩

theorem getElem_eq_getD {t : Array SparseSet} {i : Nat} (hi : i < t.size) :
    t[i] = t.getD i (SparseSet.empty 0) := by
  simp [hi]

theorem neighbourhoods_beq {s t : Array SparseSet} {n m : Nat} (hs : Neighbourhoods s n)
    (ht : Neighbourhoods t m) :
    (s == t) = true ↔ n = m ∧ ∀ a b, (s.getD a (SparseSet.empty 0)).contains b =
      (t.getD a (SparseSet.empty 0)).contains b := by
  change s.isEqv t (· == ·) = true ↔ _
  rw [Array.isEqv_iff_rel]
  constructor
  · rintro ⟨hsize, heq⟩
    obtain rfl : n = m := by rw [← hs.size_eq, hsize, ht.size_eq]
    refine ⟨rfl, fun a b => ?_⟩
    by_cases ha : a < n
    · have hbeq := heq a (hs.size_eq ▸ ha)
      rw [getElem_eq_getD, getElem_eq_getD (t := t),
        SparseSet.beq_iff (hs.valid a ha) (ht.valid a ha)] at hbeq
      exact hbeq.2 b
    · have hsa := hs.size_eq
      have hta := ht.size_eq
      rw [Array.getD_eq_getD_getElem?, Array.getElem?_eq_none (by omega),
        Array.getD_eq_getD_getElem?, Array.getElem?_eq_none (by omega)]
  · rintro ⟨rfl, heq⟩
    refine ⟨hs.size_eq.trans ht.size_eq.symm, fun a ha => ?_⟩
    have han : a < n := hs.size_eq ▸ ha
    rw [getElem_eq_getD, getElem_eq_getD (t := t),
      SparseSet.beq_iff (hs.valid a han) (ht.valid a han), hs.capacity_eq a han,
      ht.capacity_eq a han]
    exact ⟨rfl, heq a⟩

/-- Equality compares the universes, the kinds and the shapes. -/
theorem beq_iff (hg : g.Valid) (hh : h.Valid) :
    (g == h) = true ↔
      g.directed = h.directed ∧ g.order = h.order ∧ g.shape = h.shape := by
  change g.sameGraph h = true ↔ _
  have hnodes := SparseSet.beq_iff hg.nodes hh.nodes
  have hout := neighbourhoods_beq hg.outgoing hh.outgoing
  have hincoming : g.directed = h.directed → g.order = h.order →
      (∀ a b, g.hasEdge a b = h.hasEdge a b) → (g.incoming == h.incoming) = true := by
    intro hd horder hedge
    cases hgd : g.directed with
    | true =>
        have hhd : h.directed = true := hd ▸ hgd
        rw [neighbourhoods_beq (hg.incoming hgd) (hh.incoming hhd)]
        refine ⟨horder, fun a b => Bool.eq_iff_iff.mpr ?_⟩
        have hgm := hg.mirror b a
        have hhm := hh.mirror b a
        simp only [predecessors, hgd, hhd, if_true] at hgm hhm
        rw [hgm, hhm, hedge]
    | false =>
        rw [hg.incoming_eq hgd, hh.incoming_eq (hd ▸ hgd)]
        rfl
  simp only [sameGraph, Bool.and_eq_true, beq_iff_eq, hnodes, hout, and_assoc]
  refine and_congr_right fun hd => ?_
  constructor
  · rintro ⟨horder, hnode, -, hedge, -⟩
    refine ⟨horder, Shape.ext (funext fun v => ?_) (funext fun a => funext fun b => ?_)⟩
    · exact congrArg (· = true) (hnode v)
    · exact congrArg (· = true) (hedge a b)
  · rintro ⟨horder, hshape⟩
    have hnode : ∀ v, g.hasNode v = h.hasNode v := fun v =>
      Bool.eq_iff_iff.mpr (iff_of_eq (congrFun (congrArg Shape.node hshape) v))
    have hedge : ∀ a b, g.hasEdge a b = h.hasEdge a b := fun a b =>
      Bool.eq_iff_iff.mpr (iff_of_eq (congrFun (congrFun (congrArg Shape.edge hshape) a) b))
    exact ⟨horder, hnode, horder, hedge, hincoming hd horder hedge⟩

theorem Valid.isGraph (hg : g.Valid) : g.shape.IsGraph g.directed :=
  ⟨hg.source, hg.target, hg.symm⟩

/-! ### The number of edges -/

/-- The edges as pairs; of an undirected graph the first endpoint is not the larger. -/
def edgeSet (g : Graph) : Finset (Nat × Nat) :=
  (Finset.range g.order ×ˢ Finset.range g.order).filter fun e =>
    g.hasEdge e.1 e.2 = true ∧ (g.directed = true ∨ e.1 ≤ e.2)

/-- All pairs of the edge relation. -/
def arcSet (g : Graph) : Finset (Nat × Nat) :=
  (Finset.range g.order ×ˢ Finset.range g.order).filter fun e => g.hasEdge e.1 e.2 = true

theorem mem_edgeSet (hg : g.Valid) {e : Nat × Nat} :
    e ∈ g.edgeSet ↔ g.hasEdge e.1 e.2 = true ∧ (g.directed = true ∨ e.1 ≤ e.2) := by
  simp only [edgeSet, Finset.mem_filter, Finset.mem_product, Finset.mem_range,
    and_iff_right_iff_imp]
  exact fun h => hg.lt_of_hasEdge h.1

theorem mem_arcSet (hg : g.Valid) {e : Nat × Nat} :
    e ∈ g.arcSet ↔ g.hasEdge e.1 e.2 = true := by
  simp only [arcSet, Finset.mem_filter, Finset.mem_product, Finset.mem_range,
    and_iff_right_iff_imp]
  exact hg.lt_of_hasEdge

theorem foldl_size_successors (hg : g.Valid) :
    g.outgoing.foldl (fun count targets => count + targets.size) 0 = g.arcSet.card := by
  have hlist : g.outgoing.toList.map SparseSet.size =
      (List.range g.order).map fun a => (g.successors a).size := by
    apply List.ext_getElem
    · simp [hg.outgoing.size_eq]
    · intro i hi _
      have hsize : i < g.outgoing.size := by simpa using hi
      simp [successors, hsize]
  have hfiber : ∀ a ∈ Finset.range g.order,
      (g.successors a).size = (g.arcSet.filter fun e => e.1 = a).card := by
    intro a _
    rw [← SparseSet.card_members (hg.successors a)]
    refine Finset.card_bij (fun b _ => (a, b)) (fun b hb => ?_)
      (fun b _ c _ hbc => (Prod.mk.inj hbc).2) (fun e he => ?_)
    · rw [SparseSet.mem_members (hg.successors a)] at hb
      exact Finset.mem_filter.mpr ⟨(mem_arcSet hg).mpr hb, rfl⟩
    · obtain ⟨hmem, rfl⟩ := Finset.mem_filter.mp he
      refine ⟨e.2, ?_, rfl⟩
      rw [SparseSet.mem_members (hg.successors e.1)]
      exact (mem_arcSet hg).mp hmem
  have hrange : (List.range g.order).toFinset = Finset.range g.order := by
    ext a
    simp
  rw [← Array.foldl_toList, ← List.foldl_map, hlist, ← List.sum_eq_foldl,
    ← List.sum_toFinset _ List.nodup_range, hrange, Finset.sum_congr rfl hfiber]
  refine (Finset.card_eq_sum_card_fiberwise fun e he => ?_).symm
  exact Finset.mem_coe.mpr (Finset.mem_range.mpr
    (hg.lt_of_hasEdge ((mem_arcSet hg).mp he)).1)

/-- Both orders of an edge and once more every loop are twice the number of edges. -/
theorem card_arcSet_add_loops (hg : g.Valid) (hd : g.directed = false) :
    g.arcSet.card + ((Finset.range g.order).filter fun v => g.hasEdge v v = true).card =
      2 * g.edgeSet.card := by
  have hreversed : g.arcSet.card =
      g.edgeSet.card + (g.arcSet.filter fun e => e.2 < e.1).card := by
    rw [← Finset.card_filter_add_card_filter_not (s := g.arcSet) fun e => e.1 ≤ e.2]
    congr 2
    · ext e
      simp [mem_arcSet hg, mem_edgeSet hg, hd]
    · ext e
      simp
  have hproper : g.edgeSet.card =
      (g.arcSet.filter fun e => e.2 < e.1).card +
        ((Finset.range g.order).filter fun v => g.hasEdge v v = true).card := by
    rw [← Finset.card_filter_add_card_filter_not (s := g.edgeSet) fun e => e.1 < e.2]
    congr 1
    · refine Finset.card_bij (fun e _ => e.swap) (fun e he => ?_)
        (fun e _ f _ h => Prod.swap_injective h) (fun e he => ⟨e.swap, ?_, e.swap_swap⟩)
      · simp only [Finset.mem_filter, mem_edgeSet hg, mem_arcSet hg] at he ⊢
        exact ⟨hg.symm hd he.1.1, he.2⟩
      · simp only [Finset.mem_filter, mem_edgeSet hg, mem_arcSet hg] at he ⊢
        exact ⟨⟨hg.symm hd he.1, .inr (Nat.le_of_lt he.2)⟩, he.2⟩
    · refine Finset.card_bij (fun e _ => e.1) (fun e he => ?_)
        (fun e he f hf h => ?_) (fun v hv => ⟨(v, v), ?_, rfl⟩)
      · simp only [Finset.mem_filter, mem_edgeSet hg, hd] at he
        have heq : e.1 = e.2 := by grind
        simp only [Finset.mem_filter, Finset.mem_range]
        refine ⟨(hg.lt_of_hasEdge he.1.1).1, ?_⟩
        rw [show g.hasEdge e.1 e.1 = g.hasEdge e.1 e.2 by rw [heq]]
        exact he.1.1
      · simp only [Finset.mem_filter, mem_edgeSet hg, hd] at he hf
        exact Prod.ext h (by grind)
      · simp only [Finset.mem_filter, Finset.mem_range] at hv
        simpa [mem_edgeSet hg] using hv.2
  omega

theorem numEdges_eq (hg : g.Valid) : g.numEdges = g.edgeSet.card := by
  unfold numEdges
  rw [foldl_size_successors hg]
  dsimp only
  split
  next hd =>
    congr 1
    ext e
    simp [mem_arcSet hg, mem_edgeSet hg, hd]
  next hd =>
    have hloops : (List.range g.order).countP (fun v => g.hasEdge v v) =
        ((Finset.range g.order).filter fun v => g.hasEdge v v = true).card := by
      rw [List.countP_eq_length_filter, ← List.toFinset_card_of_nodup
        (List.nodup_range.filter _)]
      congr 1
      ext v
      simp
    have := card_arcSet_add_loops hg (by simpa using hd)
    rw [hloops]
    omega

theorem numEdges_le (hg : g.Valid) (hh : h.Valid) (hd : g.directed = h.directed)
    (hle : g.shape ≤ h.shape) : g.numEdges ≤ h.numEdges := by
  rw [numEdges_eq hg, numEdges_eq hh]
  apply Finset.card_le_card
  intro e he
  rw [mem_edgeSet hg] at he
  rw [mem_edgeSet hh, ← hd]
  exact ⟨hle.2 _ _ he.1, he.2⟩

theorem numEdges_congr (hg : g.Valid) (hh : h.Valid) (hd : g.directed = h.directed)
    (hedge : ∀ a b, g.hasEdge a b = true ↔ h.hasEdge a b = true) :
    g.numEdges = h.numEdges := by
  rw [numEdges_eq hg, numEdges_eq hh]
  congr 1
  ext e
  rw [mem_edgeSet hg, mem_edgeSet hh, hedge, hd]

/-- The pair under which an edge is counted. -/
def canonical (directed : Bool) (a b : Nat) : Nat × Nat :=
  if directed = true ∨ a ≤ b then (a, b) else (b, a)

theorem numEdges_addEdge (hg : g.Valid) {a b : Nat} (ha : a < g.order) (hb : b < g.order)
    (hab : g.hasEdge a b = false) : (g.addEdge a b).numEdges = g.numEdges + 1 := by
  rw [numEdges_eq (hg.addEdge ha hb), numEdges_eq hg]
  have hset : (g.addEdge a b).edgeSet = insert (canonical g.directed a b) g.edgeSet := by
    ext e
    rw [mem_edgeSet (hg.addEdge ha hb), Finset.mem_insert, mem_edgeSet hg,
      directed_addEdge, hasEdge_addEdge hg ha hb]
    unfold Shape.SameEdge canonical
    grind
  rw [hset, Finset.card_insert_of_notMem]
  rw [mem_edgeSet hg]
  unfold canonical
  have hsymm := hg.symm (a := b) (b := a)
  grind

theorem numEdges_removeEdge (hg : g.Valid) {a b : Nat} (hab : g.hasEdge a b = true) :
    (g.removeEdge a b).numEdges + 1 = g.numEdges := by
  rw [numEdges_eq (hg.removeEdge a b), numEdges_eq hg]
  have hset : (g.removeEdge a b).edgeSet = g.edgeSet.erase (canonical g.directed a b) := by
    ext e
    rw [mem_edgeSet (hg.removeEdge a b), Finset.mem_erase, mem_edgeSet hg,
      directed_removeEdge, hasEdge_removeEdge hg]
    unfold Shape.SameEdge canonical
    grind
  have hmem : canonical g.directed a b ∈ g.edgeSet := by
    rw [mem_edgeSet hg]
    unfold canonical
    have hsymm := hg.symm (a := a) (b := b)
    grind
  rw [hset, Finset.card_erase_add_one hmem]

/-! ### Graphs that can be built -/

theorem valid_empty (n : Nat) (d : Bool) : (empty n d).Valid := by
  have horder : (empty n d).order = n := SparseSet.capacity_empty n
  refine ⟨SparseSet.valid_empty n, ?_, fun hd => ?_, fun hd => ?_, fun a b => ?_,
    fun a b hab => ?_⟩
  · rw [horder]
    exact Neighbourhoods.replicate n
  · rw [horder]
    have hincoming : (empty n d).incoming = Array.replicate n (SparseSet.empty n) :=
      if_pos hd
    rw [hincoming]
    exact Neighbourhoods.replicate n
  · have hdirected : ¬ d = true := by simpa [empty] using hd
    exact if_neg hdirected
  · cases d <;>
      simp only [predecessors, hasEdge, successors, empty, if_true, Bool.false_eq_true,
        if_false, Neighbourhoods.contains_replicate]
  · have hfalse : (empty n d).hasEdge a b = false := Neighbourhoods.contains_replicate n a b
    simp [hfalse] at hab

theorem Valid.foldl_removeEdge (hg : g.Valid) (edges : List Edge) :
    (edges.foldl (fun g e => g.removeEdge e.1 e.2) g).Valid := by
  induction edges generalizing g with
  | nil => exact hg
  | cons e edges ih => exact ih (hg.removeEdge e.1 e.2)

theorem Valid.isolate (hg : g.Valid) (v : Nat) : (g.isolate v).Valid := by
  have hout := hg.foldl_removeEdge ((g.successors v).toList.map (v, ·))
  rw [List.foldl_map] at hout
  unfold Graph.isolate
  dsimp only
  split
  · have hin := hout.foldl_removeEdge
      (((((g.successors v).toList.foldl (fun g other => g.removeEdge v other) g).predecessors
        v).toList.map (·, v)))
    rw [List.foldl_map] at hin
    exact hin
  · exact hout

theorem Valid.removeNode (hg : g.Valid) {v : Nat} (h' : g.removeNode v = .ok h) :
    h.Valid := by
  unfold Graph.removeNode dropIsolated at h'
  split at h'
  next hisolated =>
    cases h'
    exact (hg.isolate v).eraseNode ((isIsolated_iff (hg.isolate v)).mp hisolated)
  next => cases h'

/-- The graphs that the operations build from an empty one, called with nodes of
the universe. -/
inductive Built (n : Nat) (d : Bool) : Graph → Prop where
  | empty : Built n d (Graph.empty n d)
  | addNode {g v} : Built n d g → v < n → Built n d (g.addNode v)
  | removeNode {g h v} : Built n d g → v < n → g.removeNode v = .ok h → Built n d h
  | addEdge {g a b} : Built n d g → a < n → b < n → Built n d (g.addEdge a b)
  | removeEdge {g a b} : Built n d g → a < n → b < n → Built n d (g.removeEdge a b)

theorem order_foldl_removeEdge (g : Graph) (edges : List Edge) :
    (edges.foldl (fun g e => g.removeEdge e.1 e.2) g).order = g.order ∧
      (edges.foldl (fun g e => g.removeEdge e.1 e.2) g).directed = g.directed := by
  induction edges generalizing g with
  | nil => exact ⟨rfl, rfl⟩
  | cons e edges ih => simpa using ih (g.removeEdge e.1 e.2)

theorem order_removeNode {v : Nat} (h' : g.removeNode v = .ok h) :
    h.order = g.order ∧ h.directed = g.directed := by
  have hisolate : (g.isolate v).order = g.order ∧ (g.isolate v).directed = g.directed := by
    have hout := order_foldl_removeEdge g ((g.successors v).toList.map (v, ·))
    rw [List.foldl_map] at hout
    unfold Graph.isolate
    dsimp only
    split
    · have hin := order_foldl_removeEdge
        ((g.successors v).toList.foldl (fun g other => g.removeEdge v other) g)
        (((((g.successors v).toList.foldl (fun g other => g.removeEdge v other)
          g).predecessors v).toList.map (·, v)))
      rw [List.foldl_map] at hin
      exact ⟨hin.1.trans hout.1, hin.2.trans hout.2⟩
    · exact hout
  unfold Graph.removeNode dropIsolated at h'
  split at h'
  · cases h'
    exact ⟨(SparseSet.capacity_erase _ _).trans hisolate.1, hisolate.2⟩
  · cases h'

/-- A built graph is valid and has the universe and the kind it was started with. -/
theorem Built.valid {n : Nat} {d : Bool} (hg : Built n d g) :
    g.Valid ∧ g.order = n ∧ g.directed = d := by
  induction hg with
  | empty => exact ⟨valid_empty n d, SparseSet.capacity_empty n, rfl⟩
  | addNode _ hv ih =>
      obtain ⟨hvalid, horder, hdirected⟩ := ih
      exact ⟨hvalid.addNode _, by simpa using horder, hdirected⟩
  | removeNode _ hv hremove ih =>
      obtain ⟨hvalid, horder, hdirected⟩ := ih
      have hsame := order_removeNode hremove
      exact ⟨hvalid.removeNode hremove, hsame.1.trans horder, hsame.2.trans hdirected⟩
  | addEdge _ ha hb ih =>
      obtain ⟨hvalid, horder, hdirected⟩ := ih
      exact ⟨hvalid.addEdge (horder ▸ ha) (horder ▸ hb), by simpa using horder,
        by simpa using hdirected⟩
  | removeEdge _ _ _ ih =>
      obtain ⟨hvalid, horder, hdirected⟩ := ih
      exact ⟨hvalid.removeEdge _ _, by simpa using horder, by simpa using hdirected⟩

theorem Built.addFan {n : Nat} {d : Bool} (hg : Built n d g) {a : Nat} (ha : a < n) :
    Built n d (g.addFan a) := by
  have hrange : ∀ b ∈ List.range g.order, b < n := by
    intro b hb
    rw [hg.valid.2.1] at hb
    exact List.mem_range.mp hb
  unfold Graph.addFan
  generalize List.range g.order = targets at hrange
  induction targets generalizing g with
  | nil => exact hg
  | cons b targets ih =>
      rw [List.foldl_cons]
      refine ih ?_ fun c hc => hrange c (List.mem_cons_of_mem b hc)
      split
      · exact hg
      · exact hg.addEdge ha (hrange b List.mem_cons_self)

theorem Built.complete (n : Nat) (d : Bool) : Built n d (Graph.complete n d) := by
  have hfold : ∀ (sources : List Nat) (g : Graph), (∀ a ∈ sources, a < n) →
      Built n d g → Built n d (sources.foldl Graph.addFan g) := by
    intro sources
    induction sources with
    | nil => exact fun _ _ hg => hg
    | cons a sources ih =>
        intro g hlt hg
        exact ih _ (fun b hb => hlt b (List.mem_cons_of_mem a hb))
          (hg.addFan (hlt a List.mem_cons_self))
  exact hfold _ _ (fun a ha => List.mem_range.mp ha) .empty

end Graph

end GraphInterval
