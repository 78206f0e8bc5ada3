import GraphInterval.Proofs.OneTree.Complete

/-!
# Loops at the designated node

Both finders leave the loops of inner nodes alone.  A loop at the designated
node is an edge like any other for the rule that attaches that node: it may be
mandatory, or one of the two cheapest, and it counts twice for the degree by
which the rule decides whether to go on.  Unless it is among the chosen edges,
a computation that succeeds leaves a one-tree.  If it is, the fast finder
leaves a record with the loop in it, and the thorough one does so too or fails
where it counts the edges.
-/

namespace GraphInterval

namespace OneTree

variable {α : Type} {n : ℕ}

/-- The record of a one-tree: `n` different edges, no loop, and two edges at the designated
node. -/
structure WellFormed (n : ℕ) (t : OneTree α) : Prop extends Complete n t where
  nodup : (t.edges.toList.map fun e => s(e.1, e.2)).Nodup
  loopless : ∀ e ∈ t.edges.toList, e.1 ≠ e.2
  two : (t.edges.toList.filter fun e => designated ∈ s(e.1, e.2)).length = 2

variable [Scalar α] {costs : Table α} {g : GraphVar} {t t' : OneTree α} {nodes : List ℕ} {e : Edge}

theorem Attached.wellFormed (hn : 2 ≤ n) (ht : t.Recorded n costs)
    (htree : IsSpanningTree (innerNodes n) t.edgeSet) (h : Attached n costs g t t') :
    t'.WellFormed n := by
  have houter : outerEdges t'.edgeSet = ((t'.edges.toList.filter fun e =>
      designated ∈ s(e.1, e.2)).map fun e => s(e.1, e.2)).toFinset := by
    ext f
    simp only [mem_outerEdges, mem_edgeSet, List.mem_toFinset, List.mem_map, List.mem_filter,
      decide_eq_true_eq]
    constructor
    · rintro ⟨⟨e, he, rfl⟩, hd⟩
      exact ⟨e, ⟨he, hd⟩, rfl⟩
    · rintro ⟨e, ⟨he, hd⟩, rfl⟩
      exact ⟨⟨e, he, rfl⟩, hd⟩
  have hnodup := h.recorded.nodup.sublist
    ((List.filter_sublist (p := fun e : Edge => designated ∈ s(e.1, e.2))).map
      fun e => s(e.1, e.2))
  refine ⟨h.complete hn ht htree, h.recorded.nodup, fun e he => (h.recorded.inside e he).2.2, ?_⟩
  rw [← h.two, houter, List.toFinset_card_of_nodup hnodup, List.length_map]

/-! ### Joining a loop -/

theorem mem_edges_foldl_join : e ∈ (nodes.foldl (join costs) t).edges.toList ↔
    e ∈ t.edges.toList ∨ ∃ v ∈ nodes, e = (designated, v) := by
  induction nodes generalizing t with
  | nil => simp
  | cons v nodes ih =>
      rw [List.foldl_cons, ih, join, Kruskal.mem_edges_addEdge]
      simp only [List.mem_cons, exists_eq_or_imp]
      exact or_assoc

theorem mem_edges_foldl_joinIfNeeded (he : e ∈ t.edges.toList) :
    e ∈ (nodes.foldl (joinIfNeeded costs) t).edges.toList := by
  refine List.foldlRecOn (motive := fun u : OneTree α => e ∈ u.edges.toList) _ _ he ?_
  intro u hu v _
  rw [joinIfNeeded]
  split
  · exact hu
  · exact Kruskal.mem_edges_addEdge.mpr (.inl hu)

/-- The loop is joined if the nodes before it leave the designated node with less than two edges. -/
theorem loop_mem_foldl_joinIfNeeded (ht : t.Sized n) (hlt : ∀ v ∈ nodes, v < n)
    (hloop : designated ∈ nodes.take (2 - t.degree designated)) :
    (designated, designated) ∈ (nodes.foldl (joinIfNeeded costs) t).edges.toList := by
  induction nodes generalizing t with
  | nil => exact absurd hloop (by simp)
  | cons v nodes ih =>
      obtain ⟨k, hk⟩ : ∃ k, 2 - t.degree designated = k + 1 := by
        refine Nat.exists_eq_add_one_of_ne_zero fun hzero => ?_
        rw [hzero] at hloop
        exact absurd hloop (by simp)
      rw [hk, List.take_succ_cons, List.mem_cons] at hloop
      rw [List.foldl_cons, joinIfNeeded, if_neg (by omega)]
      by_cases hv : v = designated
      · apply mem_edges_foldl_joinIfNeeded
        exact Kruskal.mem_edges_addEdge.mpr (.inr (by rw [hv]))
      · have hdegree := degree_join costs ht
          (mem_innerNodes.mpr ⟨hv, hlt v List.mem_cons_self⟩)
        have hk' : 2 - (t.join costs v).degree designated = k := by omega
        have hjoined : (t.join costs v).Sized n := ht.addEdge _ _ _
        apply ih hjoined fun w hw => hlt w (List.mem_cons_of_mem v hw)
        rw [hk']
        exact hloop.resolve_left fun h => hv h.symm

theorem loop_mem_joinDesignated (hn : 0 < n) (hg : g.IsUndirected n) (ht : t.Recorded n costs)
    (houter : outerEdges t.edgeSet = ∅) (hloop : designated ∈ chosenNodes costs g) :
    (designated, designated) ∈ (t.joinDesignated costs g).edges.toList := by
  rw [joinDesignated]
  by_cases hmandatory : designated ∈ (g.lower.successors designated).toList
  · apply mem_edges_foldl_joinIfNeeded
    exact mem_edges_foldl_join.mpr (.inr ⟨designated, hmandatory, rfl⟩)
  · have hinner : ∀ v ∈ (g.lower.successors designated).toList, v ∈ innerNodes n := by
      intro v hv
      have hpotential := hg.valid.isPotential ((mem_mandatoryNodes hg.valid).mp hv)
      exact mem_innerNodes.mpr ⟨fun h => hmandatory (h ▸ hv), (hg.lt_of_isPotential hpotential).2⟩
    have hnodup := nodup_mandatoryNodes hg.valid
    have hjoined := recorded_foldl_join ht hnodup hinner fun v _ => notMem_of_outerEdges houter v
    apply loop_mem_foldl_joinIfNeeded hjoined.1.sized
    · intro v hv
      have hoptional := (twoCheapest_spec _ (nodup_optionalNodes hg.valid)).2.1 v hv
      exact (hg.lt_of_isPotential ((mem_optionalNodes hg.valid).mp hoptional).1).2
    · rw [degree_foldl_join hn ht houter hnodup hinner]
      exact (List.mem_append.mp hloop).resolve_left hmandatory

/-- The edges of the designated node lead to nodes of the graph. -/
theorem isClosed_joinDesignated (hg : g.IsUndirected n) (ht : t.Recorded n costs) :
    (t.joinDesignated costs g).isClosed = true := by
  have hinside : (t.joinDesignated costs g).order = n ∧
      ∀ e ∈ (t.joinDesignated costs g).edges.toList, e.1 < n ∧ e.2 < n := by
    apply Kruskal.joinDesignated_preserves
      (P := fun u : OneTree α => u.order = n ∧ ∀ e ∈ u.edges.toList, e.1 < n ∧ e.2 < n) hg.valid
    · exact ⟨ht.sized.order_eq, fun e he => ⟨(ht.inside e he).1, (ht.inside e he).2.1⟩⟩
    · rintro u v ⟨horder, hu⟩ hv
      refine ⟨horder, fun e he => ?_⟩
      obtain he | rfl := Kruskal.mem_edges_addEdge.mp he
      · exact hu e he
      · exact hg.lt_of_isPotential hv
  rw [isClosed, Array.all_eq_true_iff_forall_mem]
  intro e he
  obtain ⟨ha, hb⟩ := hinside.2 e (Array.mem_toList_iff.mpr he)
  simp [hinside.1, ha, hb]

/-- If the loop is among the chosen edges, it becomes an edge of the tree. -/
theorem attachDesignated_loop (hn : 0 < n) (hcosts : costs.Square n) (hg : g.IsUndirected n)
    (ht : t.Recorded n costs) (houter : outerEdges t.edgeSet = ∅)
    (hloop : designated ∈ chosenNodes costs g) :
    (attachDesignated costs g).wp (fun _ t' => (designated, designated) ∈ t'.edges.toList)
      (fun failure _ => failure = .conflict detector) t := by
  have horder : g.order ≠ 0 := by
    rw [hg.order_eq]
    omega
  have hmem := loop_mem_joinDesignated hn hg ht houter hloop
  rw [Attempt.wp, attachDesignated, if_neg horder]
  by_cases hmany : 2 < (g.lower.successors designated).size
  · rw [if_pos hmany]
  · simp only [if_neg hmany, knowsDesignated_eq hn hcosts hg, isClosed_joinDesignated hg ht]
    generalize t.joinDesignated costs g = joined at hmem
    by_cases hlack : joined.degree designated < 2
    · simp [hlack]
    · simpa [hlack] using hmem

/-! ### The two finders -/

/-- The tree is a one-tree, unless the loop of the designated node was chosen and is an edge of
it. -/
structure Formed (n : ℕ) (costs : Table α) (g : GraphVar) (t : OneTree α) : Prop where
  wellFormed : designated ∉ chosenNodes costs g → t.WellFormed n
  loop : designated ∈ chosenNodes costs g → (designated, designated) ∈ t.edges.toList

/-- Attaching the designated node to a spanning tree either way. -/
theorem attachDesignated_formed (hn : 2 ≤ n) (hcosts : costs.Square n) (hg : g.IsUndirected n)
    (ht : t.Recorded n costs) (htree : IsSpanningTree (innerNodes n) t.edgeSet) :
    (attachDesignated costs g).wp
      (fun _ t' => Formed n costs g t' ∧
        (designated ∉ chosenNodes costs g → t'.edges.size = t.edges.size + 2))
      (fun failure _ => failure = .conflict detector) t := by
  have houter := outerEdges_eq_empty htree
  by_cases hloop : designated ∈ chosenNodes costs g
  · refine Attempt.wp_mono (attachDesignated_loop (by omega) hcosts hg ht houter hloop) ?_
      fun _ _ h => h
    exact fun _ t' h => ⟨⟨fun hno => absurd hloop hno, fun _ => h⟩, fun hno => absurd hloop hno⟩
  · refine Attempt.wp_mono (attachDesignated_counts (by omega) hcosts hg hloop ht houter) ?_
      fun _ _ h => h.1
    exact fun _ t' h => ⟨⟨fun _ => h.wellFormed hn ht htree, fun hyes => absurd hyes hloop⟩,
      fun _ => h.size_eq⟩

end OneTree

namespace Kruskal

open OneTree

variable {α : Type} [Scalar α] {n : ℕ} {costs : Table α} {g : GraphVar} {k : Kruskal α}

/-- With a cost for every edge, a mandatory edge is only refused as it closes a cycle. -/
theorem takeMandatory_conflict (hcosts : costs.Square n) {e : Edge} (he : e ∈ mandatoryPairs n g) :
    (takeMandatory costs e).wp (fun _ _ => True) (fun failure _ => failure = .conflict detector)
      k := by
  obtain ⟨ha, hb⟩ := inner_of_mem (mem_mandatoryPairs.mp he).1
  have hcovers : costs.covers e.1 e.2 = true :=
    hcosts.covers (mem_innerNodes.mp ha).2 (mem_innerNodes.mp hb).2
  rw [Attempt.wp, takeMandatory]
  cases hfresh : (k.sets.union e.1 e.2).1 <;> simp [hfresh, hcovers]

/-- The thorough finder has a conflict or leaves a one-tree, unless the loop was chosen: then it
leaves the loop in the tree or fails to count its edges. -/
theorem compute_formed (hn : 2 ≤ n) (hk : k.Sized n) (hcosts : costs.Square n)
    (hg : g.IsUndirected n) :
    (compute costs g).wp (fun _ k' => Formed n costs g k'.tree)
      (fun failure _ => failure = .conflict detector ∨
        designated ∈ chosenNodes costs g ∧ failure = .fault .incompleteOneTree) k := by
  have hfits := Table.fits_of_square hk.costs hcosts
  simp only [compute, Attempt.wp_bind, Attempt.wp_get, Attempt.wp_ite, Attempt.wp_pure,
    Attempt.wp_set, Attempt.wp_throw, Attempt.wp_modify, Attempt.wp_within, hfits,
    hk.tree.order_eq]
  rw [← possiblePairs, ← mandatoryPairs, ← optionalPairs]
  refine ⟨fun h => absurd h (by simp), fun _ => ?_⟩
  refine Attempt.wp_mono (Attempt.wp_forM_keep (I := Picking n costs g (k.restart costs) [])
    (E := fun failure _ => failure = .conflict detector)
    (fun e he k₁ h₁ => Attempt.wp_mono
      (Attempt.wp_and (takeMandatory_picking h₁ he) (takeMandatory_conflict hcosts he))
      (fun _ _ h => h.1) fun _ _ h => h.2)
    (picking_restart hk)) ?_ fun _ _ h => .inl h
  intro _ k₁ h₁
  refine ⟨fun h => absurd h (by simp [coversPairs_eq hg, knowsCandidates_eq hcosts]),
    fun _ => ⟨fun h => absurd h (by omega), fun _ => ⟨fun _ => .inl trivial, fun hsize => ?_⟩⟩⟩
  have h₂ := selectCheapest_picked h₁
  generalize selectCheapest costs (optionalPairs n g) k₁ = k₂ at h₂ hsize
  have hsize' : k₂.tree.edges.size + 2 = n := by simpa using hsize
  refine Attempt.wp_mono (attachDesignated_formed hn hcosts hg h₂.selecting.recorded
    (h₂.isSpanningTree hn hsize')) ?_ fun _ _ h => .inl h
  rintro _ t ⟨hformed, hcount⟩
  refine ⟨fun hlack => .inr ⟨?_, trivial⟩, fun _ => hformed⟩
  by_contra hloop
  exact hlack ((hcount hloop).trans hsize')

end Kruskal

/-- With costs that compare with themselves, the fast finder has a conflict or leaves a one-tree, or
a tree with the loop if that was chosen. -/
theorem Prim.compute_formed {α : Type} [Scalar α] [LawfulScalar α] {n : ℕ} {costs : Table α}
    {g : GraphVar} {p : Prim α} (hn : 2 ≤ n) (hp : p.Sized n) (hcosts : costs.Square n)
    (hself : costs.Comparable) (hg : g.IsUndirected n) :
    (Prim.compute costs g).wp (fun _ p' => OneTree.Formed n costs g p'.tree)
      (fun failure _ => failure = .conflict OneTree.detector) p := by
  refine Attempt.wp_mono (Prim.compute_phases (Q := OneTree.Formed n costs g)
    (E := fun failure => failure = .conflict OneTree.detector) hn hp hcosts hself hg fun hgrown =>
      Attempt.wp_mono (OneTree.attachDesignated_formed hn hcosts hg hgrown.recorded hgrown.spanning)
        (fun _ _ h => h.1) fun _ _ h => h) (fun _ _ h => h) ?_
  rintro failure _ (h | h)
  · exact h
  · exact h.1

namespace OneTree

/-- With finite costs, both finders succeed or have a conflict on every undirected graph, and leave
a one-tree on success, as long as the rule for the designated node does not choose a loop there.
Otherwise the tree of the fast finder has the loop on success, and so has that of the thorough
finder, which may also fail when it counts the edges. -/
theorem wellFormed_unless_loop {n : ℕ} {costs : Table Double} {g : GraphVar} {k : Kruskal Double}
    {p : Prim Double} (hn : 3 ≤ n) (hk : Kruskal.Reached n k) (hp : Prim.Reached n p)
    (hcosts : costs.Square n) (hfinite : ∀ a < n, ∀ b < n, (costs.cost a b).isFinite = true)
    (hg : g.Reachable) (horder : g.order = n) (hundirected : g.directed = false) :
    (∀ failure p', Prim.compute costs g p = .error failure p' → failure = .conflict detector) ∧
      (∀ failure k', Kruskal.compute costs g k = .error failure k' →
        failure = .conflict detector ∨
          designated ∈ chosenNodes costs g ∧ failure = .fault .incompleteOneTree) ∧
      (designated ∉ chosenNodes costs g →
        (∀ p', Prim.compute costs g p = .ok () p' → p'.tree.WellFormed n) ∧
          ∀ k', Kruskal.compute costs g k = .ok () k' → k'.tree.WellFormed n) ∧
      (designated ∈ chosenNodes costs g →
        (∀ p', Prim.compute costs g p = .ok () p' →
            (designated, designated) ∈ p'.tree.edges.toList) ∧
          ∀ k', Kruskal.compute costs g k = .ok () k' →
            (designated, designated) ∈ k'.tree.edges.toList) ∧
      (designated ∈ chosenNodes costs g → g.isPotential designated designated = true) := by
  have hgraph : g.IsUndirected n := ⟨hg.valid, horder, hundirected⟩
  have hself : costs.Comparable := hcosts.comparable fun a ha b hb =>
    Double.le_self_of_isFinite (hfinite a ha b hb)
  have hthorough := Kruskal.compute_formed (by omega) hk.sized hcosts hgraph
  have hfast := Prim.compute_formed (by omega) hp.sized hcosts hself hgraph
  refine ⟨fun failure p' hrun => (Attempt.of_wp_error hfast hrun :),
    fun failure k' hrun => (Attempt.of_wp_error hthorough hrun :), fun hno => ⟨fun p' hrun => ?_,
      fun k' hrun => ?_⟩, fun hyes => ⟨fun p' hrun => ?_, fun k' hrun => ?_⟩,
    fun hyes => mem_chosenNodes_isPotential hg.valid hyes⟩
  · exact (Attempt.of_wp_ok hfast hrun).wellFormed hno
  · exact (Attempt.of_wp_ok hthorough hrun).wellFormed hno
  · exact (Attempt.of_wp_ok hfast hrun).loop hyes
  · exact (Attempt.of_wp_ok hthorough hrun).loop hyes

/-- A triangle with further edges, of which none is mandatory. -/
def triangleWith (edges : List Edge) : GraphVar :=
  { lower := Graph.empty 3 false
    upper := (edges ++ [(0, 1), (0, 2), (1, 2)]).foldl
      (fun (g : Graph) (e : Edge) => g.addEdge e.1 e.2) (Graph.empty 3 false)
    log := {} }

theorem reachable_triangleWith {edges : List Edge} (hedges : ∀ e ∈ edges, e.1 < 3 ∧ e.2 < 3)
    (hnested : (triangleWith edges).lower.order = (triangleWith edges).upper.order ∧
      (triangleWith edges).lower.directed = (triangleWith edges).upper.directed ∧
      (triangleWith edges).lower.isSubgraphOf (triangleWith edges).upper) :
    (triangleWith edges).Reachable := by
  have hall : ∀ e ∈ edges ++ [(0, 1), (0, 2), (1, 2)], e.1 < 3 ∧ e.2 < 3 := by
    intro e he
    obtain he | he := List.mem_append.mp he
    · exact hedges e he
    · simp only [List.mem_cons, List.not_mem_nil, or_false] at he
      obtain rfl | rfl | rfl := he <;> decide
  have hupper : Graph.Built 3 false (triangleWith edges).upper :=
    List.foldlRecOn (motive := Graph.Built 3 false) _ _ .empty
      fun g hg e he => hg.addEdge (hall e he).1 (hall e he).2
  exact .of_nested .empty hupper hnested

/-- Every edge costs one, and every loop twice as much. -/
def dearLoops : Table Double :=
  Table.ofFn 3 fun a b => if a = b then ⟨0x4000000000000000⟩ else ⟨0x3ff0000000000000⟩

/-- Possible loops that are too expensive do no harm. -/
theorem wellFormed_unless_loop_dear :
    let g := triangleWith [(0, 0), (1, 1)]
    Kruskal.Reached 3 (Kruskal.make 3 : Kruskal Double) ∧
      Prim.Reached 3 (Prim.make 3 : Prim Double) ∧ dearLoops.Square 3 ∧
      (∀ a < 3, ∀ b < 3, (dearLoops.cost a b).isFinite = true) ∧ g.Reachable ∧ g.order = 3 ∧
      g.directed = false ∧ g.isPotential 0 0 = true ∧ g.isPotential 1 1 = true ∧
      (∃ p', Prim.compute dearLoops g (Prim.make 3) = .ok () p' ∧ p'.tree.WellFormed 3) ∧
      ∃ k', Kruskal.compute dearLoops g (Kruskal.make 3) = .ok () k' ∧ k'.tree.WellFormed 3 := by
  intro g
  have hk : Kruskal.Reached 3 (Kruskal.make 3 : Kruskal Double) := .make
  have hp : Prim.Reached 3 (Prim.make 3 : Prim Double) := .make
  have hcosts : dearLoops.Square 3 := Table.square_ofFn _ _
  have hfinite : ∀ a < 3, ∀ b < 3, (dearLoops.cost a b).isFinite = true := by decide +kernel
  have hg : g.Reachable := reachable_triangleWith (by decide) (by decide +kernel)
  have horder : g.order = 3 := rfl
  have hdirected : g.directed = false := rfl
  have hno : designated ∉ chosenNodes dearLoops g := by decide +kernel
  have hloops : g.isPotential 0 0 = true ∧ g.isPotential 1 1 = true := by decide +kernel
  have hprim : (Prim.compute dearLoops g).passes (fun _ _ => true) (Prim.make 3) = true := by
    decide +kernel
  have hkruskal : (Kruskal.compute dearLoops g).passes (fun _ _ => true) (Kruskal.make 3) =
      true := by decide +kernel
  obtain ⟨_, p', hprun, -⟩ := Attempt.passes_iff.mp hprim
  obtain ⟨_, k', hkrun, -⟩ := Attempt.passes_iff.mp hkruskal
  obtain ⟨-, -, hformed, -⟩ :=
    wellFormed_unless_loop (by decide) hk hp hcosts hfinite hg horder hdirected
  obtain ⟨hfast, hthorough⟩ := hformed hno
  exact ⟨hk, hp, hcosts, hfinite, hg, horder, hdirected, hloops.1, hloops.2,
    ⟨p', hprun, hfast p' hprun⟩, ⟨k', hkrun, hthorough k' hkrun⟩⟩

/-- All edges cost one, and loops nothing. -/
def freeLoops : Table Double :=
  Table.ofFn 3 fun a b => if a = b then ⟨0⟩ else ⟨0x3ff0000000000000⟩

/-- A loop that costs nothing is joined first and fills both places at the designated node.  The fast
finder succeeds with a tree that has an edge too few, and the thorough one fails to count them. -/
theorem free_loop_joined :
    let g := triangleWith [(0, 0)]
    freeLoops.Square 3 ∧ (∀ a < 3, ∀ b < 3, (freeLoops.cost a b).isFinite = true ∧
        freeLoops.cost a b = freeLoops.cost b a) ∧
      g.Reachable ∧ g.order = 3 ∧ g.directed = false ∧
      (∃ p', Prim.compute freeLoops g (Prim.make 3) = .ok () p' ∧
        p'.tree.edges.toList = [(1, 2), (0, 0)] ∧ ¬ p'.tree.WellFormed 3) ∧
      ∃ k', Kruskal.compute freeLoops g (Kruskal.make 3) =
        .error (.fault .incompleteOneTree) k' := by
  intro g
  have hcosts : freeLoops.Square 3 := Table.square_ofFn _ _
  have hfinite : ∀ a < 3, ∀ b < 3, (freeLoops.cost a b).isFinite = true := by decide +kernel
  have hsymm : ∀ a < 3, ∀ b < 3, freeLoops.cost a b = freeLoops.cost b a := by
    intro a ha b hb
    rw [freeLoops, Table.cost, Table.cost, Table.entry_ofFn _ ha hb, Table.entry_ofFn _ hb ha]
    simp only [eq_comm]
  have hg : g.Reachable := reachable_triangleWith (by decide) (by decide +kernel)
  have hprim : (Prim.compute freeLoops g).passes
      (fun _ p' => p'.tree.edges.toList == [(1, 2), (0, 0)]) (Prim.make 3) = true := by
    decide +kernel
  have hkruskal : (Kruskal.compute freeLoops g).failsWith (.fault .incompleteOneTree)
      (Kruskal.make 3) = true := by decide +kernel
  obtain ⟨_, p', hprun, hedges⟩ := Attempt.passes_iff.mp hprim
  refine ⟨hcosts, fun a ha b hb => ⟨hfinite a ha b hb, hsymm a ha b hb⟩, hg, rfl, rfl,
    ⟨p', hprun, beq_iff_eq.mp hedges, fun h => ?_⟩, Attempt.failsWith_iff.mp hkruskal⟩
  exact h.loopless (0, 0) (by simp [beq_iff_eq.mp hedges]) rfl

end OneTree

end GraphInterval
