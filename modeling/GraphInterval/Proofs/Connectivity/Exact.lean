import GraphInterval.Proofs.Connectivity.Search
import GraphInterval.Proofs.GraphVar.Restriction
import GraphInterval.Proofs.Propagation

/-!
# Propagating connected graphs

A propagation removes the nodes out of reach and enforces the nodes that
separate mandatory ones.  Both are forced by the connected graphs of the
domain, so all of these stay in it.  A node that is passed over is missing in
one of them at the time it is looked at, and that graph remains a connected
graph of the domain, whatever is enforced later; hence a single pass over the
nodes leaves a linked variable.
-/

namespace GraphInterval

namespace GraphVar

variable {g g' : GraphVar} {v : Nat}

/-- Restricting the nodes of the graphs of a domain makes no edge mandatory. -/
theorem Narrows.isMandatory_eq (h : Narrows g g') (hg : g.Valid) {P : (Nat → Prop) → Prop}
    (hadmits : ∀ H, g'.Admits H ↔ g.Admits H ∧ P H.node) (a b : Nat) :
    g'.isMandatory a b = g.isMandatory a b := by
  obtain ⟨hvalid, -, hdirected, hlower, hupper⟩ := h.preserves hg
  have hlower' := hvalid.admits_lower
  -- the mandatory edges of `g` on the mandatory nodes of `g'`
  have hmiddle : g'.Admits { node := g'.lower.shape.node, edge := g.lower.shape.edge } := by
    refine (hadmits _).mpr ⟨⟨⟨fun hab => hlower.1 _ (hg.lower.source hab),
      fun hab => hlower.1 _ (hg.lower.target hab), fun hd a b hab => ?_⟩,
      ⟨hlower.1, fun _ _ hab => hab⟩, fun v hv => hupper.1 v (hvalid.le.1 v hv), hg.le.2⟩,
      ((hadmits _).mp hlower').2⟩
    exact hg.admits_lower.isGraph.symm hd hab
  exact Bool.eq_iff_iff.mpr ⟨fun hab => hmiddle.lower_le.2 a b hab, h.isMandatory hg⟩

/-- Enforcing a possible node succeeds. -/
theorem exists_enforceNode_eq (hv : g.isPotentialNode v = true) :
    ∃ changed, enforceNode v g = .ok changed (g.includeEndpoint v) := by
  rw [enforceNode_eq, includeEndpoint, hv]
  cases hmandatory : g.isMandatoryNode v <;> simp

theorem includeEndpoint_admits (hg : g.Valid) (hv : g.isPotentialNode v = true) {H : Shape}
    (hH : g.Admits H) (hnode : H.node v) : (g.includeEndpoint v).Admits H := by
  obtain ⟨hupper, hedge⟩ := includeEndpoint_bounds g v
  refine ⟨(includeEndpoint_narrows hv).directed hg ▸ hH.isGraph, ⟨fun x hx => ?_, fun a b hab => ?_⟩,
    hupper.symm ▸ hH.le_upper⟩
  · obtain rfl | hx := (isMandatoryNode_includeEndpoint hg hv x).mp hx
    · exact hnode
    · exact hH.lower_le.1 x hx
  · exact hH.lower_le.2 a b ((hedge a b).symm.trans hab)

/-- Two mandatory nodes are the same if there are fewer than two of them. -/
theorem Valid.eq_of_size_lt_two (hg : g.Valid) (hsize : g.lower.nodes.size < 2) {r m : Nat}
    (hr : g.isMandatoryNode r = true) (hm : g.isMandatoryNode m = true) : r = m := by
  have hcard : g.lower.nodes.members.card ≤ 1 := by
    rw [SparseSet.card_members hg.lower.nodes]
    omega
  exact Finset.card_le_one.mp hcard r ((SparseSet.mem_members hg.lower.nodes).mpr hr) m
    ((SparseSet.mem_members hg.lower.nodes).mpr hm)

end GraphVar

namespace Connectivity

abbrev State := Posted Connectivity GraphVar

variable {g₀ : GraphVar} {s s' : State} {around : Option Nat} {r v : Nat}

/-- The search has a mark for every node of the graph. -/
def Suits (c : Connectivity) (g : GraphVar) : Prop := c.search.reached.size = g.order

theorem suits_make (g : GraphVar) : (make g).Suits g := by
  simp [Suits, make]

/-- The decisions since `g₀` are forced, and none of them concerns a mandatory edge. -/
structure Filtering (g₀ : GraphVar) (s : State) : Prop where
  narrows : g₀.Narrows s.domains
  keeps : ∀ H ∈ g₀.connectedGraphs, s.domains.Admits H
  suits : s.propagator.Suits s.domains
  isMandatory : ∀ a b, s.domains.isMandatory a b = g₀.isMandatory a b

/-- The propagator stopped because the domain has no connected graph. -/
structure Failed (g₀ : GraphVar) (failure : Failure) (s : State) : Prop where
  failure_eq : failure = .conflict name
  narrows : g₀.Narrows s.domains
  suits : s.propagator.Suits s.domains
  empty : ∀ H, H ∉ g₀.connectedGraphs

theorem Filtering.valid (hg₀ : g₀.Valid) (h : Filtering g₀ s) : s.domains.Valid :=
  h.narrows.valid hg₀

theorem Filtering.connectedGraphs_eq (hg₀ : g₀.Valid) (h : Filtering g₀ s) :
    s.domains.connectedGraphs = g₀.connectedGraphs := by
  ext H
  exact ⟨fun hH => ⟨h.narrows.admits hg₀ hH.1, hH.2⟩, fun hH => ⟨h.keeps H hH, hH.2⟩⟩

/-- A forced decision about a node keeps the invariant. -/
theorem Filtering.decide (hg₀ : g₀.Valid) (h : Filtering g₀ s)
    (hnarrows : s.domains.Narrows s'.domains)
    (hkeeps : ∀ H ∈ g₀.connectedGraphs, s'.domains.Admits H)
    (hsize : s'.propagator.search.reached.size = s.propagator.search.reached.size)
    (hmandatory : ∀ a b, s'.domains.isMandatory a b = s.domains.isMandatory a b) :
    Filtering g₀ s' :=
  ⟨h.narrows.trans hnarrows, hkeeps,
    (hsize.trans h.suits).trans (hnarrows.order (h.valid hg₀)).symm,
    fun a b => (hmandatory a b).trans (h.isMandatory a b)⟩

/-- The list of candidates is of no concern. -/
theorem Filtering.holding (h : Filtering g₀ s) (l : List Nat) :
    Filtering g₀ (s.holding candidatesBuffer l) :=
  ⟨h.narrows, h.keeps, h.suits, h.isMandatory⟩

theorem explore_wp (hg₀ : g₀.Valid) (h : Filtering g₀ s) (hr : s.domains.isPotentialNode r = true)
    (around : Option Nat) {E : Failure → State → Prop} :
    (explore r around).wp
      (fun search s' => Filtering g₀ s' ∧ s'.domains = s.domains ∧
        ∀ v, search.hasReached v = true ↔ s.domains.upper.shape.Joins around r v) E s := by
  obtain ⟨hsize, hreached⟩ := Search.explore_spec around (h.valid hg₀)
    ((h.valid hg₀).upper.lt_of_hasNode hr) h.suits
  rw [explore, Attempt.wp_bind, Attempt.wp_get, Attempt.wp_bind, Posted.update, Attempt.wp_modify,
    Attempt.wp_pure]
  exact ⟨⟨h.narrows, h.keeps, hsize, h.isMandatory⟩, rfl, hreached⟩

/-- All mandatory nodes were reached. -/
theorem coversMandatory_iff {g : GraphVar} (hg : g.Valid) (search : Search) :
    search.coversMandatory g = true ↔
      ∀ m, g.isMandatoryNode m = true → search.hasReached m = true := by
  simp only [Search.coversMandatory, List.all_eq_true, Graph.mem_nodes hg.lower]
  rfl

/-! ### Nodes out of reach -/

theorem removeUnreached_wp (hg₀ : g₀.Valid) (h : Filtering g₀ s)
    (hnonempty : ∃ H, H ∈ g₀.connectedGraphs) (hmissing : ∀ H ∈ g₀.connectedGraphs, ¬ H.node v) :
    (removeUnreached v).wp
      (fun _ s' => Filtering g₀ s' ∧ s.domains.Narrows s'.domains ∧
        s'.domains.isPotentialNode v = false)
      (fun _ _ => False) s := by
  have hvalid := h.valid hg₀
  obtain ⟨H₀, hH₀⟩ := hnonempty
  rw [removeUnreached, Attempt.wp_bind, Posted.onDomains, Attempt.wp_within]
  refine Attempt.wp_mono (Attempt.wp_and (GraphVar.removeNode_wp hvalid v)
    (GraphVar.removeNode_restricts hvalid v)) ?_ ?_
  · intro changed g' hremoved
    obtain ⟨hnarrows, hrestricts⟩ := hremoved
    have hadmits := hrestricts.admits_iff
    rw [Posted.update, Attempt.wp_modify]
    refine ⟨h.decide hg₀ hnarrows (fun H hH => (hadmits H).mpr ⟨h.keeps H hH, hmissing H hH⟩) rfl
      (hnarrows.isMandatory_eq (P := fun node => ¬ node v) hvalid hadmits), hnarrows, ?_⟩
    rw [Bool.eq_false_iff]
    exact fun hpotential => ((hadmits _).mp (hnarrows.valid hvalid).admits_upper).2 hpotential
  · intro failure g' hfailed
    exact hmissing H₀ hH₀ (hfailed.2.2.2 H₀ (h.keeps H₀ hH₀))

/-- Removing the nodes that a search from a mandatory node did not reach joins all others to it. -/
theorem visitEach_removeUnreached_wp (hg₀ : g₀.Valid) (h : Filtering g₀ s)
    (hdomains : s.domains = g₀) {search : Search} (hr : g₀.isMandatoryNode r = true)
    (hreached : ∀ v, search.hasReached v = true ↔ g₀.upper.shape.Joins none r v)
    (hcovers : ∀ m, g₀.isMandatoryNode m = true → g₀.upper.shape.Joins none r m) :
    (Posted.visitEach candidatesBuffer (·.upper.nodes.toList.filter (!search.hasReached ·))
        removeUnreached).wp
      (fun _ s' => Filtering g₀ s' ∧ s'.domains.isMandatoryNode r = true ∧
        ∀ v, s'.domains.isPotentialNode v = true → s'.domains.upper.shape.Joins none r v)
      (fun _ _ => False) s := by
  have hcomponent := hg₀.component_mem hcovers
  have hmissing : ∀ v, search.hasReached v = false → ∀ H ∈ g₀.connectedGraphs, ¬ H.node v := by
    intro v hv H hH hnode
    have hjoined := (hH.2 r v (hH.1.lower_le.1 r hr) hnode).mono hH.1.le_upper
    exact absurd (hv.symm.trans ((hreached v).mpr hjoined)) (by simp)
  rw [Posted.wp_visitEach, hdomains]
  refine Attempt.wp_mono (Attempt.wp_forM_each (I := Filtering g₀)
    (D := fun v t => t.domains.isPotentialNode v = false)
    (fun v hv t hfiltering => ?_) (h.holding _)) ?_ fun _ _ hf => hf
  · have hunreached : search.hasReached v = false := by simpa using (List.mem_filter.mp hv).2
    refine Attempt.wp_mono (removeUnreached_wp hg₀ hfiltering ⟨_, hcomponent⟩
      (hmissing v hunreached)) ?_ fun _ _ hf => hf
    intro _ t' hremoved
    obtain ⟨hfiltering', hnarrows, hgone⟩ := hremoved
    refine ⟨hfiltering', hgone, fun x _ hx => ?_⟩
    rw [Bool.eq_false_iff] at hx ⊢
    exact fun hx' => hx (hnarrows.isPotentialNode (hfiltering.valid hg₀) hx')
  · intro _ t ht
    obtain ⟨hfiltering, hgone⟩ := ht
    refine ⟨hfiltering, hfiltering.narrows.isMandatoryNode hg₀ hr, fun v hv => ?_⟩
    have hjoined : g₀.upper.shape.Joins none r v := by
      rw [← hreached]
      by_contra hunreached
      have hmem : v ∈ g₀.upper.nodes.toList.filter (!search.hasReached ·) :=
        List.mem_filter.mpr ⟨(Graph.mem_nodes hg₀.upper).mpr
          (hfiltering.narrows.isPotentialNode hg₀ hv), by simpa using hunreached⟩
      exact absurd ((hgone v hmem).symm.trans hv) (by simp)
    -- the component of the root is a connected graph, so its edges are still possible
    exact hjoined.component.mono (hfiltering.keeps _ hcomponent).le_upper

/-! ### Separating nodes -/

/-- A node that separates two mandatory ones belongs to every connected graph. -/
theorem Filtering.node_of_separates (h : Filtering g₀ s) {m : Nat}
    (hr : s.domains.isMandatoryNode r = true) (hm : s.domains.isMandatoryNode m = true)
    (hmissed : ¬ s.domains.upper.shape.Joins (some v) r m) {H : Shape}
    (hH : H ∈ g₀.connectedGraphs) : H.node v := by
  by_contra hnode
  have hadmits := h.keeps H hH
  have hpath := hH.2 r m (hadmits.lower_le.1 r hr) (hadmits.lower_le.1 m hm)
  refine hmissed ((hpath.avoid fun x hx => hnode ?_).mono hadmits.le_upper)
  obtain hx | hx := hx
  · exact hadmits.isGraph.target hx
  · exact hadmits.isGraph.source hx

theorem enforceSeparator_wp (hg₀ : g₀.Valid) (h : Filtering g₀ s)
    (hr : s.domains.isMandatoryNode r = true) (hv : s.domains.isPotentialNode v = true)
    (hvr : r ≠ v) :
    (enforceSeparator r v).wp
      (fun _ s' => Filtering g₀ s' ∧ s.domains.Narrows s'.domains ∧
        s'.domains.upper = s.domains.upper ∧
        (s'.domains.isMandatoryNode v = true ∨ ∃ H ∈ g₀.connectedGraphs, ¬ H.node v))
      (fun _ _ => False) s := by
  have hvalid := h.valid hg₀
  rw [enforceSeparator, Attempt.wp_bind]
  refine Attempt.wp_mono (explore_wp hg₀ h (hvalid.isPotentialNode hr) (some v)) ?_
    fun _ _ hf => hf
  intro search t hexplored
  obtain ⟨ht, hdomains, hreached⟩ := hexplored
  rw [Attempt.wp_bind, Attempt.wp_get, Attempt.wp_ite, hdomains, Bool.not_eq_true',
    ← Bool.not_eq_true, coversMandatory_iff hvalid]
  constructor
  · intro hcovers
    obtain ⟨m, hm, hmissed⟩ : ∃ m, s.domains.isMandatoryNode m = true ∧
        ¬ s.domains.upper.shape.Joins (some v) r m := by
      by_contra hall
      push Not at hall
      exact hcovers fun m hm => (hreached m).mpr (hall m hm)
    have hforced : ∀ H ∈ g₀.connectedGraphs, H.node v := fun H hH =>
      h.node_of_separates hr hm hmissed hH
    rw [← hdomains] at hv hvalid ⊢
    obtain ⟨changed, hrun⟩ := GraphVar.exists_enforceNode_eq hv
    obtain ⟨hupper, hedge⟩ := GraphVar.includeEndpoint_bounds t.domains v
    have hnarrows := GraphVar.includeEndpoint_narrows hv
    rw [Attempt.wp_bind, Posted.onDomains, Attempt.wp_within, Attempt.wp, hrun]
    refine ⟨ht.decide hg₀ hnarrows (fun H hH => GraphVar.includeEndpoint_admits hvalid hv
      (ht.keeps H hH) (hforced H hH)) rfl hedge, hnarrows, hupper, .inl ?_⟩
    exact (GraphVar.isMandatoryNode_includeEndpoint hvalid hv v).mpr (.inl rfl)
  · intro hcovers
    rw [not_not] at hcovers
    have hmem := hvalid.component_mem fun m hm => (hreached m).mp (hcovers m hm)
    rw [h.connectedGraphs_eq hg₀] at hmem
    refine ⟨ht, hdomains ▸ .refl, congrArg GraphVar.upper hdomains, .inr ⟨_, hmem, fun hnode => ?_⟩⟩
    exact hnode.2.ne hvr rfl

/-- The variable was narrowed by forced decisions about nodes until it was linked. -/
structure Completed (g₀ : GraphVar) (s : State) : Prop where
  filtering : Filtering g₀ s
  linked : s.domains.Linked

/-- A variable whose nodes are joined to a mandatory one is linked once every node that is not
mandatory is missing in a connected graph. -/
theorem Filtering.completed (hg₀ : g₀.Valid) (h : Filtering g₀ s)
    (hjoined : ∀ v, s.domains.isPotentialNode v = true → s.domains.upper.shape.Joins none r v)
    (hmissing : ∀ v, s.domains.isPotentialNode v = true →
      s.domains.isMandatoryNode v = true ∨ ∃ H ∈ g₀.connectedGraphs, ¬ H.node v) :
    Completed g₀ s := by
  have hvalid := h.valid hg₀
  refine ⟨h, fun m v hm hv => (hjoined m (hvalid.isPotentialNode hm)).symm.trans (hjoined v hv),
    fun m m' v hm hm' hv hnot => ?_⟩
  obtain ⟨H, hH, hnode⟩ := (hmissing v hv).resolve_left (by simp [hnot])
  have hadmits := h.keeps H hH
  have hpath := hH.2 m m' (hadmits.lower_le.1 m hm) (hadmits.lower_le.1 m' hm')
  refine (hpath.avoid fun x hx => hnode ?_).mono hadmits.le_upper
  obtain hx | hx := hx
  · exact hadmits.isGraph.target hx
  · exact hadmits.isGraph.source hx

theorem visitEach_enforceSeparator_wp (hg₀ : g₀.Valid) (h : Filtering g₀ s)
    (hr : s.domains.isMandatoryNode r = true)
    (hjoined : ∀ v, s.domains.isPotentialNode v = true → s.domains.upper.shape.Joins none r v) :
    (Posted.visitEach candidatesBuffer (fun g => g.upper.nodes.toList.filter
        (!g.isMandatoryNode ·)) (enforceSeparator r)).wp
      (fun _ s' => Completed g₀ s') (fun _ _ => False) s := by
  have hvalid := h.valid hg₀
  have hmem : ∀ v, v ∈ s.domains.upper.nodes.toList.filter (!s.domains.isMandatoryNode ·) ↔
      s.domains.isPotentialNode v = true ∧ s.domains.isMandatoryNode v = false := by
    intro v
    rw [List.mem_filter, Graph.mem_nodes hvalid.upper, Bool.not_eq_true']
    rfl
  rw [Posted.wp_visitEach]
  refine Attempt.wp_mono (Attempt.wp_forM_each
    (I := fun t => Filtering g₀ t ∧ s.domains.Narrows t.domains ∧
      t.domains.upper = s.domains.upper)
    (D := fun v t => t.domains.isMandatoryNode v = true ∨ ∃ H ∈ g₀.connectedGraphs, ¬ H.node v)
    (fun v hv t ht => ?_) ⟨h.holding _, .refl, rfl⟩) ?_ fun _ _ hf => hf
  · obtain ⟨hfiltering, hnarrows, hupper⟩ := ht
    obtain ⟨hpotential, hnot⟩ := (hmem v).mp hv
    have hvr : r ≠ v := by
      rintro rfl
      exact absurd (hnot.symm.trans hr) (by simp)
    refine Attempt.wp_mono (enforceSeparator_wp hg₀ hfiltering
      (hnarrows.isMandatoryNode hvalid hr)
      (by rwa [GraphVar.isPotentialNode, hupper]) hvr) ?_ fun _ _ hf => hf
    intro _ t' hstep
    obtain ⟨hfiltering', hnarrows', hupper', hself⟩ := hstep
    exact ⟨⟨hfiltering', hnarrows.trans hnarrows', hupper'.trans hupper⟩, hself,
      fun x _ hx => hx.imp_left (hnarrows'.isMandatoryNode (hfiltering.valid hg₀))⟩
  · intro _ t ht
    obtain ⟨⟨hfiltering, hnarrows, hupper⟩, hdone⟩ := ht
    refine hfiltering.completed hg₀ (r := r) (fun v hv => ?_) fun v hv => ?_
    · rw [GraphVar.isPotentialNode, hupper] at hv
      rw [hupper]
      exact hjoined v hv
    · rw [GraphVar.isPotentialNode, hupper] at hv
      cases hmandatory : s.domains.isMandatoryNode v with
      | true => exact .inl (hnarrows.isMandatoryNode hvalid hmandatory)
      | false => exact hdone v ((hmem v).mpr ⟨hv, hmandatory⟩)

/-! ### Propagating from scratch -/

theorem propagateFromScratch_wp {g : GraphVar} (hg : g.Valid) {c : Connectivity} (hc : c.Suits g) :
    propagateFromScratch.wp (fun _ s' => Completed g s') (Failed g) ⟨c, g⟩ := by
  have hstart : ∀ n, Filtering g ⟨{ c with numPropagations := n }, g⟩ := fun _ =>
    ⟨.refl, fun H hH => hH.1, hc, fun _ _ => rfl⟩
  simp only [propagateFromScratch, Posted.update, Attempt.wp_bind, Attempt.wp_modify,
    Attempt.wp_get]
  cases hhead : g.lower.nodes.toList.head? with
  | none =>
      have hnone : ∀ m, ¬ g.isMandatoryNode m = true := by
        intro m hm
        rw [List.head?_eq_none_iff] at hhead
        have hmem := (Graph.mem_nodes hg.lower).mpr hm
        rw [hhead] at hmem
        exact absurd hmem List.not_mem_nil
      exact ⟨hstart _, fun r _ hr => absurd hr (hnone r), fun r _ _ hr => absurd hr (hnone r)⟩
  | some root =>
      have hroot : g.isMandatoryNode root = true :=
        (Graph.mem_nodes hg.lower).mp (List.mem_of_head? hhead)
      have hcovers_iff := coversMandatory_iff hg
      dsimp only
      rw [Attempt.wp_bind]
      refine Attempt.wp_mono (explore_wp hg (hstart _) (hg.isPotentialNode hroot) none) ?_
        fun _ _ hf => hf
      intro search t hexplored
      obtain ⟨ht, hdomains, hreached⟩ := hexplored
      change t.domains = g at hdomains
      simp only [Attempt.wp_bind, Attempt.wp_get, Attempt.wp_ite, hdomains, Bool.not_eq_true',
        Attempt.wp_throw, ← Bool.not_eq_true, hcovers_iff]
      constructor
      · intro hcovers
        refine ⟨rfl, ht.narrows, ht.suits, fun H hH => hcovers fun m hm => (hreached m).mpr ?_⟩
        have hpath := hH.2 root m (hH.1.lower_le.1 root hroot) (hH.1.lower_le.1 m hm)
        exact hpath.mono hH.1.le_upper
      · intro hcovers
        rw [not_not] at hcovers
        refine Attempt.wp_mono (visitEach_removeUnreached_wp hg ht hdomains hroot hreached
          fun m hm => (hreached m).mp (hcovers m hm)) ?_ fun _ _ hf => hf.elim
        intro _ u hremoved
        obtain ⟨hu, hroot', hjoined⟩ := hremoved
        constructor
        · intro hsize
          -- the root is the only mandatory node, and nothing separates it from itself
          refine ⟨hu, fun m v hm hv => ?_, fun m m' v hm hm' _ _ => ?_⟩
          · obtain rfl := (hu.valid hg).eq_of_size_lt_two hsize hroot' hm
            exact hjoined v hv
          · obtain rfl := (hu.valid hg).eq_of_size_lt_two hsize hm hm'
            exact .refl
        · intro _
          exact Attempt.wp_mono (visitEach_enforceSeparator_wp hg hu hroot' hjoined)
            (fun _ _ h => h) fun _ _ hf => hf.elim

/-- The bounds after a propagation are given by the connected graphs of the original domain. -/
theorem Completed.bounds_eq (hg₀ : g₀.Valid) (h : Completed g₀ s) :
    s.domains.upper.shape = Shape.union g₀.connectedGraphs ∧
      s.domains.lower.shape.node = (Shape.inter g₀.connectedGraphs).node ∧
      s.domains.lower.shape.edge = g₀.lower.shape.edge := by
  obtain ⟨hnode, hupper⟩ := h.linked.bounds_eq (h.filtering.valid hg₀)
  rw [h.filtering.connectedGraphs_eq hg₀] at hnode hupper
  refine ⟨hupper, hnode, funext fun a => funext fun b => ?_⟩
  exact congrArg (· = true) (h.filtering.isMandatory a b)

theorem Completed.nonempty (hg₀ : g₀.Valid) (h : Completed g₀ s) :
    ∃ H, H ∈ g₀.connectedGraphs := by
  rw [← h.filtering.connectedGraphs_eq hg₀]
  exact h.linked.nonempty (h.filtering.valid hg₀)

/-- Propagating from scratch succeeds if and only if the domain has a connected
graph.  Then the possible nodes and edges are those of its connected graphs, the
mandatory nodes are those that they share, and the mandatory edges stay. -/
theorem propagateFromScratch_exact_on_nodes {g : GraphVar} (hg : g.Reachable) {c : Connectivity}
    (hc : c.Suits g) :
    ((∃ s, propagateFromScratch ⟨c, g⟩ = .ok () s) ↔ ∃ H, H ∈ g.connectedGraphs) ∧
      (∀ s, propagateFromScratch ⟨c, g⟩ = .ok () s →
        s.domains.upper.shape = Shape.union g.connectedGraphs ∧
          s.domains.lower.shape.node = (Shape.inter g.connectedGraphs).node ∧
          s.domains.lower.shape.edge = g.lower.shape.edge) ∧
      (∀ failure s, propagateFromScratch ⟨c, g⟩ = .error failure s →
        failure = .conflict name) := by
  have hvalid := hg.valid
  have hwp := propagateFromScratch_wp hvalid hc
  refine ⟨⟨?_, ?_⟩, ?_, ?_⟩
  · intro hrun
    obtain ⟨s, hs⟩ := hrun
    exact (Attempt.of_wp_ok hwp hs).nonempty hvalid
  · intro hsolution
    obtain ⟨H, hH⟩ := hsolution
    cases hrun : propagateFromScratch ⟨c, g⟩ with
    | ok _ s => exact ⟨s, rfl⟩
    | error failure s => exact absurd hH ((Attempt.of_wp_error hwp hrun).empty H)
  · intro s hs
    exact (Attempt.of_wp_ok hwp hs).bounds_eq hvalid
  · intro failure s hs
    exact (Attempt.of_wp_error hwp hs).failure_eq

/-- The connected graphs with both ends of a path contain its middle, and the
propagation finds it. -/
theorem propagateFromScratch_exact_on_nodes_path :
    let g := (GraphVar.Mutation.enforceNode 2).run.after
      ((GraphVar.Mutation.enforceNode 0).run.after
        ((GraphVar.Mutation.removeEdge 0 2).run.after (GraphVar.unconstrained 3 false)))
    g.Reachable ∧ (make g).Suits g ∧ g.isMandatoryNode 1 = false ∧
      (∃ H, H ∈ g.connectedGraphs) ∧ ∀ H ∈ g.connectedGraphs, H.node 1 := by
  intro g
  have hg : g.Reachable := .mutate _ (.mutate _ (.mutate _ (.unconstrained 3 false)))
  obtain ⟨hok, hbounds, -⟩ := propagateFromScratch_exact_on_nodes hg (suits_make g)
  have hmiddle : g.isMandatoryNode 1 = false := by decide
  have heval : propagateFromScratch.passes (fun _ s => s.domains.isMandatoryNode 1)
      ⟨make g, g⟩ = true := by decide
  obtain ⟨_, s, hrun, hmandatory⟩ := Attempt.passes_iff.mp heval
  have hnode : s.domains.lower.shape.node 1 := hmandatory
  rw [(hbounds s hrun).2.1] at hnode
  exact ⟨hg, suits_make g, hmiddle, hok.mp ⟨s, hrun⟩, hnode⟩

end Connectivity

end GraphInterval
