import GraphInterval.Proofs.OneTree.Sized

/-!
# What a computation leaves

Whatever the graph and the costs, a computation that succeeds leaves a
spanning tree of the inner nodes and two edges of the designated node.  An
edge is drawn at most once: it joins the tree, or it is passed over and stays
outside.  So all edges of the tree are possible, and no edge that was passed
over is mandatory or an edge of the tree.  Costs only decide which edges these
are, and neither finite costs nor laws of comparisons are needed.
-/

namespace GraphInterval

namespace Kruskal

open OneTree Attempt

variable {α : Type} [Scalar α] {n : ℕ} {costs : Table α} {g : GraphVar} {k k₀ : Kruskal α}
variable {t : OneTree α}

/-! ### Drawing edges -/

/-- Some optional edges were drawn after the mandatory ones, and each of them was taken or passed
over. -/
structure Picking (n : ℕ) (costs : Table α) (g : GraphVar) (k₀ : Kruskal α) (done : List Edge)
    (k : Kruskal α) : Prop where
  selecting : Selecting n costs k₀ k
  taken : ∀ e ∈ k.tree.edges.toList, e ∈ mandatoryPairs n g ∨ e ∈ done
  passed : ∀ e ∈ k.nonTreeEdges, e ∈ done ∧ e ∉ k.tree.edges.toList

variable {done : List Edge} {e : Edge}

theorem mem_edges_addEdge {a b : ℕ} {c : α} :
    e ∈ (t.addEdge a b c).edges.toList ↔ e ∈ t.edges.toList ∨ e = (a, b) := by
  simp [addEdge]

theorem picking_restart (hk : k.Sized n) :
    Picking n costs g (k.restart costs) [] (k.restart costs) := by
  have hedges : (k.restart costs).tree.edges = #[] := (clear_spec hk.tree).2.1
  have hnone : ∀ e ∈ (k.restart costs).tree.edges.toList, e ∈ mandatoryPairs n g ∨ e ∈ [] := by
    intro e he
    rw [hedges] at he
    exact absurd he List.not_mem_nil
  exact ⟨(takingMandatory_restart (g := g) hk).selecting, hnone,
    fun e he => absurd he List.not_mem_nil⟩

theorem takeMandatory_picking (h : Picking n costs g k₀ [] k) (he : e ∈ mandatoryPairs n g) :
    (takeMandatory costs e).wp (fun _ => Picking n costs g k₀ []) (fun _ _ => True) k := by
  obtain ⟨ha, hb⟩ := inner_of_mem (mem_mandatoryPairs.mp he).1
  rw [wp, takeMandatory]
  by_cases hjoined : Joined k.tree.edgeSet e.1 e.2
  · obtain ⟨hfresh, -⟩ := h.selecting.skip (mem_innerNodes.mp ha).2 (mem_innerNodes.mp hb).2 hjoined
    simp only [hfresh]
    trivial
  · obtain ⟨hfresh, htake⟩ := h.selecting.take ha hb hjoined
    simp only [hfresh]
    cases costs.covers e.1 e.2
    · trivial
    · have htaken : ∀ f ∈ (k.tree.addEdge e.1 e.2 (costs.cost e.1 e.2)).edges.toList,
          f ∈ mandatoryPairs n g ∨ f ∈ [] := by
        intro f hf
        obtain hf | rfl := mem_edges_addEdge.mp hf
        · exact h.taken f hf
        · exact .inl he
      exact ⟨htake k.nonTreeEdges, htaken, fun f hf => absurd (h.passed f hf).1 List.not_mem_nil⟩

theorem picking_takeUnlessCycle (h : Picking n costs g k₀ done k) (he : e ∈ optionalPairs n g)
    (hnew : e ∉ done) : Picking n costs g k₀ (done ++ [e]) (takeUnlessCycle costs k e) := by
  obtain ⟨hpossible, hmandatory⟩ := mem_optionalPairs.mp he
  obtain ⟨ha, hb⟩ := inner_of_mem hpossible
  have htaken : ∀ f ∈ k.tree.edges.toList, f ∈ mandatoryPairs n g ∨ f ∈ done ++ [e] :=
    fun f hf => (h.taken f hf).imp_right (List.mem_append_left [e])
  have hlast : e ∈ done ++ [e] := List.mem_append_right done List.mem_cons_self
  rw [takeUnlessCycle]
  by_cases hjoined : Joined k.tree.edgeSet e.1 e.2
  · obtain ⟨hfresh, hskip⟩ := h.selecting.skip (mem_innerNodes.mp ha).2 (mem_innerNodes.mp hb).2
      hjoined
    simp only [hfresh, Bool.false_eq_true, if_false]
    refine ⟨hskip _, htaken, fun f hf => ?_⟩
    obtain rfl | hf := List.mem_cons.mp hf
    · refine ⟨hlast, fun hmem => ?_⟩
      obtain hM | hdone := h.taken _ hmem
      · exact absurd (hmandatory.symm.trans (mem_mandatoryPairs.mp hM).2) Bool.false_ne_true
      · exact hnew hdone
    · obtain ⟨hdone, hout⟩ := h.passed f hf
      exact ⟨List.mem_append_left [e] hdone, hout⟩
  · obtain ⟨hfresh, htake⟩ := h.selecting.take ha hb hjoined
    simp only [hfresh, if_true]
    refine ⟨htake k.nonTreeEdges, fun f hf => ?_, fun f hf => ?_⟩
    · obtain hf | rfl := mem_edges_addEdge.mp hf
      · exact htaken f hf
      · exact .inr hlast
    · obtain ⟨hdone, hout⟩ := h.passed f hf
      refine ⟨List.mem_append_left [e] hdone, fun hmem => ?_⟩
      obtain hmem | rfl := mem_edges_addEdge.mp hmem
      · exact hout hmem
      · exact hnew hdone

theorem picking_foldl {rest : List Edge} (hoptional : ∀ e ∈ rest, e ∈ optionalPairs n g)
    (hnodup : (done ++ rest).Nodup) (h : Picking n costs g k₀ done k) :
    Picking n costs g k₀ (done ++ rest) (rest.foldl (takeUnlessCycle costs) k) := by
  induction rest generalizing done k with
  | nil => exact (List.append_nil done).symm ▸ h
  | cons e rest ih =>
      obtain ⟨he, hrest⟩ := List.forall_mem_cons.mp hoptional
      have hnew : e ∉ done := fun hmem =>
        (List.nodup_append.mp hnodup).2.2 e hmem e List.mem_cons_self rfl
      rw [List.append_cons] at hnodup ⊢
      exact ih hrest hnodup (picking_takeUnlessCycle h he hnew)

/-- All edges were drawn. -/
structure Picked (n : ℕ) (costs : Table α) (g : GraphVar) (k₀ k : Kruskal α) : Prop where
  selecting : Selecting n costs k₀ { k with nonTreeEdges := k₀.nonTreeEdges }
  taken : ∀ e ∈ k.tree.edges.toList, e ∈ possiblePairs n g
  passed : ∀ e ∈ k.nonTreeEdges, e ∈ optionalPairs n g ∧ e ∉ k.tree.edges.toList

theorem selectCheapest_picked (h : Picking n costs g k₀ [] k) :
    Picked n costs g k₀ (selectCheapest costs (optionalPairs n g) k) := by
  have hperm := List.mergeSort_perm (optionalPairs n g) (cheaper costs)
  have hmem : ∀ {e}, e ∈ (optionalPairs n g).mergeSort (cheaper costs) → e ∈ optionalPairs n g :=
    hperm.mem_iff.mp
  have hnodup : (optionalPairs n g).Nodup := ((nodup_pairs n).filter _).filter _
  obtain ⟨hselecting, htaken, hpassed⟩ := picking_foldl (fun e => hmem)
    ((List.nil_append _).symm ▸ hperm.nodup_iff.mpr hnodup) h
  have hpossible : ∀ e ∈ (selectCheapest costs (optionalPairs n g) k).tree.edges.toList,
      e ∈ possiblePairs n g := by
    intro e he
    obtain hM | hdone := htaken e he
    · exact (mem_mandatoryPairs.mp hM).1
    · exact (mem_optionalPairs.mp (hmem hdone)).1
  have hout : ∀ e ∈ (selectCheapest costs (optionalPairs n g) k).nonTreeEdges,
      e ∈ optionalPairs n g ∧
        e ∉ (selectCheapest costs (optionalPairs n g) k).tree.edges.toList := by
    intro e he
    obtain ⟨hdone, hout⟩ := hpassed e (List.mem_reverse.mp he)
    exact ⟨hmem hdone, hout⟩
  exact ⟨⟨hselecting.frame, hselecting.recorded, hselecting.inner, hselecting.forest,
    hselecting.sets, hselecting.same⟩, hpossible, hout⟩

/-- As many edges as a spanning tree of the inner nodes has form one. -/
theorem Picked.isSpanningTree (hn : 2 ≤ n) (h : Picked n costs g k₀ k)
    (hsize : k.tree.edges.size + 2 = n) : IsSpanningTree (innerNodes n) k.tree.edgeSet := by
  have hnonempty : (innerNodes n).Nonempty := by
    rw [← Finset.card_pos, card_innerNodes]
    omega
  have hcard : k.tree.edgeSet.card = k.tree.edges.size := h.selecting.recorded.card_edgeSet
  apply (h.selecting.forest.isSpanningTree_iff h.selecting.inner hnonempty).mpr
  change k.tree.edgeSet.card + 1 = _
  rw [hcard, card_innerNodes]
  omega

/-! ### Attaching the designated node -/

/-- The edges of the designated node are not among the inner ones. -/
theorem innerPairs_joinDesignated (costs : Table α) (g : GraphVar) (t : OneTree α) :
    innerPairs (t.joinDesignated costs g) = innerPairs t := by
  have hjoin : ∀ (t : OneTree α) v, innerPairs (t.join costs v) = innerPairs t := by
    intro t v
    simp [innerPairs, join, addEdge]
  apply List.foldlRecOn (motive := fun u : OneTree α => innerPairs u = innerPairs t)
  · exact List.foldlRecOn (motive := fun u : OneTree α => innerPairs u = innerPairs t) _ _ rfl
      fun u hu v _ => (hjoin u v).trans hu
  · intro u hu v _
    rw [joinIfNeeded]
    split
    · exact hu
    · exact (hjoin u v).trans hu

theorem innerPairs_attachDesignated (costs : Table α) (g : GraphVar) (t : OneTree α) :
    (attachDesignated costs g).wp (fun _ u => innerPairs u = innerPairs t) (fun _ _ => True) t :=
  attachDesignated_ends (innerPairs_joinDesignated costs g t) ⟨trivial, trivial⟩

/-- Only edges to possible neighbours of the designated node are added. -/
theorem joinDesignated_preserves {P : OneTree α → Prop} (hg : g.Valid) (ht : P t)
    (hjoin : ∀ u v, P u → g.isPotential designated v = true → P (u.join costs v)) :
    P (t.joinDesignated costs g) := by
  have hnodup : (optionalNodes g).Nodup :=
    (SparseSet.nodup_toList (hg.upper.successors designated)).filter _
  apply List.foldlRecOn (motive := P)
  · refine List.foldlRecOn (motive := P) _ _ ht fun u hu v hv => hjoin u v hu ?_
    exact hg.isPotential ((Graph.mem_successors hg.lower).mp hv)
  · intro u hu v hv
    have hoptional := (twoCheapest_spec (costs.cost designated) hnodup).2.1 v hv
    have hpotential := (Graph.mem_successors hg.upper).mp (List.mem_filter.mp hoptional).1
    rw [joinIfNeeded]
    split
    · exact hu
    · exact hjoin u v hu hpotential

/-- The marks are those of the edges, which are old ones and possible ones of the designated
node. -/
structure Extends (n : ℕ) (g : GraphVar) (t u : OneTree α) : Prop where
  sized : u.Sized n
  contains_iff : ∀ a < n, ∀ b < n, u.contains a b = true ↔ s(a, b) ∈ u.edgeSet
  mem_or : ∀ e ∈ u.edges.toList,
    e ∈ t.edges.toList ∨ e.1 = designated ∧ g.isPotential designated e.2 = true

theorem Extends.join {u : OneTree α} (hg : g.Valid) (horder : g.order = n) (h : Extends n g t u)
    {v : ℕ} (hv : g.isPotential designated v = true) : Extends n g t (u.join costs v) := by
  obtain ⟨hd, hlt⟩ := horder ▸ hg.lt_order hv
  have hcontains : ∀ a < n, ∀ b < n,
      (u.join costs v).contains a b = true ↔ s(a, b) ∈ (u.join costs v).edgeSet := by
    intro a ha b hb
    rw [OneTree.join, contains_addEdge h.sized hd hlt ha hb, h.contains_iff a ha b hb,
      edgeSet_addEdge, Finset.mem_insert]
  have hmem : ∀ e ∈ (u.join costs v).edges.toList,
      e ∈ t.edges.toList ∨ e.1 = designated ∧ g.isPotential designated e.2 = true := by
    intro e he
    obtain he | rfl := mem_edges_addEdge.mp he
    · exact h.mem_or e he
    · exact .inr ⟨rfl, hv⟩
  exact ⟨h.sized.addEdge _ _ _, hcontains, hmem⟩

theorem attachDesignated_extends (hg : g.Valid) (horder : g.order = n) (ht : t.Recorded n costs) :
    (attachDesignated costs g).wp (fun _ => Extends n g t) (fun _ _ => True) t := by
  have hstart : Extends n g t t := ⟨ht.sized, ht.contains_iff, fun e he => .inl he⟩
  have hjoined : Extends n g t (t.joinDesignated costs g) :=
    joinDesignated_preserves hg hstart fun u v hu hv => hu.join hg horder hv
  exact attachDesignated_ends hjoined ⟨trivial, trivial⟩

/-! ### The computed tree -/

/-- A computation left a spanning tree without the designated node, and passed over edges of other
nodes only. -/
structure Spans (n : ℕ) (k : Kruskal α) : Prop where
  two_le : 2 ≤ n
  sized : k.Sized n
  nodup : ((innerPairs k.tree).map sym).Nodup
  tree : IsSpanningTree (innerNodes n) (innerEdges k.tree.edgeSet)
  inner : ∀ e ∈ k.nonTreeEdges, e.1 ∈ innerNodes n ∧ e.2 ∈ innerNodes n

/-- Whatever the graph and the costs, a computation that succeeds leaves a spanning tree. -/
theorem compute_spans (hk : k.Sized n) (costs : Table α) (g : GraphVar) :
    (compute costs g).wp (fun _ => Spans n) (fun _ _ => True) k := by
  have hspans : (compute costs g).wp (fun _ k' => k'.Sized n → Spans n k') (fun _ _ => True) k := by
    apply compute_phases hk.tree.order_eq (picking_restart hk)
      (fun e he k₁ h₁ => takeMandatory_picking h₁ he)
    rintro k₁ k₂ h₁ rfl hn hsize
    have h₂ := selectCheapest_picked h₁
    have hspanning := h₂.isSpanningTree hn hsize
    generalize selectCheapest costs (optionalPairs n g) k₁ = k₂ at *
    apply wp_mono (innerPairs_attachDesignated costs g _) _ fun _ _ _ => trivial
    intro _ t ht hsized
    have hedges : innerEdges t.edgeSet = k₂.tree.edgeSet := by
      rw [innerEdges_edgeSet, ht, ← innerEdges_edgeSet, innerEdges_eq_self hspanning]
    have hnodup : ((innerPairs t).map sym).Nodup :=
      ht ▸ h₂.selecting.recorded.nodup.sublist (List.filter_sublist.map sym)
    exact ⟨hn, hsized, hnodup, hedges ▸ hspanning, fun e he =>
      inner_of_mem (mem_optionalPairs.mp (h₂.passed e he).1).1⟩
  exact wp_mono (wp_and (compute_sized hk costs g) hspans) (fun _ _ h => h.2 h.1)
    fun _ _ _ => trivial

/-- All edges of the tree are possible and marked, and the edges that were passed over are optional
ones outside of the tree. -/
structure Placed (n : ℕ) (g : GraphVar) (k : Kruskal α) : Prop where
  taken : ∀ e ∈ k.tree.edges.toList,
    e ∈ possiblePairs n g ∨ e.1 = designated ∧ g.isPotential designated e.2 = true
  contains_iff : ∀ a < n, ∀ b < n, k.tree.contains a b = true ↔ s(a, b) ∈ k.tree.edgeSet
  passed : ∀ e ∈ k.nonTreeEdges, e ∈ optionalPairs n g ∧ e ∉ k.tree.edges.toList

theorem compute_placed (hk : k.Sized n) (costs : Table α) (hg : g.Valid) (horder : g.order = n) :
    (compute costs g).wp (fun _ => Placed n g) (fun _ _ => True) k := by
  apply compute_phases hk.tree.order_eq (picking_restart hk)
    (fun e he k₁ h₁ => takeMandatory_picking h₁ he)
  rintro k₁ k₂ h₁ rfl hn hsize
  have h₂ := selectCheapest_picked h₁
  generalize selectCheapest costs (optionalPairs n g) k₁ = k₂ at *
  apply wp_mono (attachDesignated_extends hg horder h₂.selecting.recorded) _ fun _ _ _ => trivial
  intro _ t ht
  have hpassed : ∀ e ∈ k₂.nonTreeEdges, e ∈ optionalPairs n g ∧ e ∉ t.edges.toList := by
    intro e he
    obtain ⟨hoptional, hout⟩ := h₂.passed e he
    have hnew : e ∉ t.edges.toList := by
      intro hmem
      obtain hold | ⟨hd, -⟩ := ht.mem_or e hmem
      · exact hout hold
      · exact (mem_possiblePairs.mp (mem_optionalPairs.mp hoptional).1).1 hd
    exact ⟨hoptional, hnew⟩
  exact ⟨fun e he => (ht.mem_or e he).imp_left (h₂.taken e), ht.contains_iff, hpassed⟩

omit [Scalar α] in
theorem Placed.isPotential (h : Placed n g k) {e : Edge} (he : e ∈ k.tree.edges.toList) :
    g.isPotential e.1 e.2 = true := by
  obtain hpossible | ⟨hd, hpotential⟩ := h.taken e he
  · exact (mem_possiblePairs.mp hpossible).2.2.2
  · exact hd ▸ hpotential

omit [Scalar α] in
/-- The order of the endpoints of an edge that was passed over does not matter. -/
theorem Placed.notMem (h : Placed n g k) {e : Edge} (he : e ∈ k.nonTreeEdges) :
    sym e ∉ k.tree.edgeSet := by
  obtain ⟨hoptional, hout⟩ := h.passed e he
  have hpossible := (mem_optionalPairs.mp hoptional).1
  obtain ⟨ha, hb⟩ := inner_of_mem hpossible
  intro hmem
  obtain ⟨f, hf, heq⟩ := mem_edgeSet.mp hmem
  obtain hfp | ⟨hd, -⟩ := h.taken f hf
  · have hsame := sym_inj (mem_possiblePairs.mp hfp).2.1 (mem_possiblePairs.mp hpossible).2.1 heq
    exact hout (hsame ▸ hf)
  · have hin : designated ∈ sym e := heq ▸ hd ▸ Sym2.mem_mk_left _ _
    exact not_mem_inner ha hb hin

/-! ### Preparing the analysis -/

/-- The tree is rooted, and the paths from all nodes have their values. -/
structure Surveyed (n : ℕ) (g : GraphVar) (k₀ k : Kruskal α) : Prop where
  sized : k.Sized n
  tree_eq : k.tree = k₀.tree
  costs_eq : k.costs = k₀.costs
  nonTreeEdges_eq : k.nonTreeEdges = k₀.nonTreeEdges
  rooted : k.IsRooted n
  grows : ∀ a ∈ innerNodes n, GrowsFrom (innerNodes n) (innerEdges k.tree.edgeSet) a
    (k.replaceableCost g) fun b => k.pathMaxima.entry a b Scalar.bottom

theorem Spans.surveyed (hk : k.Spans n) (g : GraphVar) :
    Surveyed n g k (k.rootTree.computePathMaxima g) := by
  obtain ⟨hframe, hsized, hlisted, hrooted⟩ := rootTree_spec hk.two_le hk.sized hk.nodup hk.tree
  have htree : k.rootTree.tree = k.tree := (congrArg Kruskal.tree hframe :)
  obtain ⟨k', heq, hframe', hsized', hgrows⟩ :=
    computePathMaxima_spec g hsized hlisted (htree ▸ hk.tree)
  have htree' : k'.tree = k.rootTree.tree := (congrArg Kruskal.tree hframe' :)
  have hcost' : k'.replaceableCost g = k.rootTree.replaceableCost g :=
    (congrArg (replaceableCost g) hframe' :)
  rw [heq]
  refine ⟨hsized', htree'.trans htree, ?_, ?_, hframe'.isRooted hrooted, ?_⟩
  · exact (congrArg Kruskal.costs hframe' :).trans (congrArg Kruskal.costs hframe :)
  · exact (congrArg Kruskal.nonTreeEdges hframe' :).trans (congrArg Kruskal.nonTreeEdges hframe :)
  · rw [htree', hcost']
    exact hgrows

omit [Scalar α] in
theorem climb_frame (k : Kruskal α) (v : ℕ) : { (k.climb v).1 with jumps := k.jumps } = k := by
  apply iterate_preserves
    (P := fun state : Kruskal α × ℕ => { state.1 with jumps := k.jumps } = k) _ _ _ rfl
  rintro ⟨k₁, v⟩ next hk₁ hstep
  rw [climbStep] at hstep
  split at hstep
  next => exact absurd hstep (by simp)
  next =>
    obtain rfl := Option.some.inj hstep
    exact hk₁

theorem coverPath_frame (k : Kruskal α) (e : Edge) :
    { coverPath k e with jumps := k.jumps, replacements := k.replacements } = k := by
  have hclimb : ∀ {k₁ : Kruskal α} (v : ℕ),
      { k₁ with jumps := k.jumps, replacements := k.replacements } = k →
        { (k₁.climb v).1 with jumps := k.jumps, replacements := k.replacements } = k :=
    fun v h₁ => (congrArg (fun k₂ : Kruskal α =>
      { k₂ with jumps := k.jumps, replacements := k.replacements }) (climb_frame _ v)).trans h₁
  apply iterate_preserves (P := fun state : Kruskal α × ℕ × ℕ =>
    { state.1 with jumps := k.jumps, replacements := k.replacements } = k)
  · rintro ⟨k₁, x, y⟩ next h₁ hstep
    rw [contractStep] at hstep
    split at hstep
    next => exact absurd hstep (by simp)
    next =>
      obtain rfl := Option.some.inj hstep
      exact hclimb _ h₁
  · exact hclimb _ (hclimb _ rfl)

theorem computeReplacements_frame (k : Kruskal α) :
    { k.computeReplacements with jumps := k.jumps, replacements := k.replacements } = k := by
  rw [computeReplacements]
  refine List.foldlRecOn (motive := fun k₁ : Kruskal α =>
    { k₁ with jumps := k.jumps, replacements := k.replacements } = k) _ _ rfl fun k₁ h₁ e _ => ?_
  exact (congrArg (fun k₂ : Kruskal α =>
    { k₂ with jumps := k.jumps, replacements := k.replacements }) (coverPath_frame k₁ e)).trans h₁

/-- The tree is rooted, and the lists of edges are those of the computation. -/
theorem Spans.prepared (hk : k.Spans n) (g : GraphVar) :
    (k.prepare g).tree = k.tree ∧ (k.prepare g).nonTreeEdges = k.nonTreeEdges ∧
      ∀ v ∈ innerNodes n, v ≠ root → s(v, (k.prepare g).parent v) ∈ k.tree.edgeSet := by
  have hs := hk.surveyed g
  have hframe := computeReplacements_frame (k.rootTree.computePathMaxima g)
  have htree : (k.prepare g).tree = k.tree := (congrArg Kruskal.tree hframe :).trans hs.tree_eq
  have hparent : (k.prepare g).parent = (k.rootTree.computePathMaxima g).parent :=
    (congrArg Kruskal.parent hframe :)
  have hnonTree : (k.prepare g).nonTreeEdges = k.nonTreeEdges :=
    (congrArg Kruskal.nonTreeEdges hframe :).trans hs.nonTreeEdges_eq
  have hedge : ∀ v ∈ innerNodes n, v ≠ root → s(v, (k.prepare g).parent v) ∈ k.tree.edgeSet := by
    intro v hv hvr
    have hinner := hs.rooted.tree.edge v hv hvr
    rw [hparent, ← hs.tree_eq]
    exact (mem_innerEdges.mp hinner).1
  exact ⟨htree, hnonTree, hedge⟩

end Kruskal

end GraphInterval
