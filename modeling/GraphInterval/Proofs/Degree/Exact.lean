import Mathlib.Data.Set.Card
import GraphInterval.Proofs.Degree.Filter

/-!
# Degree filtering is exact

The graphs that the constraint asks for are the graphs of the domain in which
no node has more edges that count than its bound.  The least graph of the
domain decides whether there is one.  An excess edge belongs to none of them, as
the mandatory edges of a node at its bound leave no room for it.  Any other
edge can be added to the least graph, because it counts at most once for every
node and finds both of its endpoints below their bounds.  So one pass over the
nodes removes the edges that belong to no such graph, and no others.
-/

namespace GraphInterval

namespace GraphVar

/-- A possible edge and the mandatory bound make up a graph of the domain. -/
theorem Valid.admits_insertEdge {g : GraphVar} (hg : g.Valid) {a b : Nat}
    (hab : g.isPotential a b = true) :
    g.Admits (g.lower.shape.insertEdge g.directed a b) := by
  have hlower := hg.admits_lower.isGraph
  refine ⟨⟨?_, ?_, ?_⟩, ⟨fun v hv => .inr (.inr hv), fun _ _ hxy => .inr hxy⟩, ⟨?_, ?_⟩⟩
  · rintro x y ((⟨rfl, rfl⟩ | ⟨-, rfl, rfl⟩) | hxy)
    · exact .inl rfl
    · exact .inr (.inl rfl)
    · exact .inr (.inr (hlower.source hxy))
  · rintro x y ((⟨rfl, rfl⟩ | ⟨-, rfl, rfl⟩) | hxy)
    · exact .inr (.inl rfl)
    · exact .inl rfl
    · exact .inr (.inr (hlower.target hxy))
  · rintro hd x y ((⟨rfl, rfl⟩ | ⟨-, rfl, rfl⟩) | hxy)
    · exact .inl (.inr ⟨hd, rfl, rfl⟩)
    · exact .inl (.inl ⟨rfl, rfl⟩)
    · exact .inr (hlower.symm hd hxy)
  · rintro v (rfl | rfl | hv)
    · exact hg.upper.source hab
    · exact hg.upper.target hab
    · exact hg.le.1 v hv
  · rintro x y (hsame | hxy)
    · exact (hg.isPotential_sameEdge hsame).trans hab
    · exact hg.le.2 x y hxy

end GraphVar

namespace DegreeLimit

variable {p : DegreeLimit} {g g₀ : GraphVar} {s : State} {G H : Shape} {o : Orientation}
  {a b v w : Nat}

/-! ### Graphs with bounded degrees -/

/-- The other endpoints of the edges of a node that count. -/
def incidence (o : Orientation) (H : Shape) (v : Nat) : Set Nat :=
  {w | H.edge (arc o v w).1 (arc o v w).2}

/-- No node has more edges that count than its bound. -/
def Bounded (p : DegreeLimit) (H : Shape) : Prop :=
  ∀ v, H.node v → (incidence p.orientation H v).encard ≤ p.bound v

/-- The graphs of the domain with bounded degrees. -/
def boundedGraphs (p : DegreeLimit) (g : GraphVar) : Set Shape :=
  {H | g.Admits H ∧ p.Bounded H}

theorem incidence_mono (hle : G ≤ H) (o : Orientation) (v : Nat) :
    incidence o G v ⊆ incidence o H v :=
  fun _ hw => hle.2 _ _ hw

theorem encard_incidence {g : Graph} (hg : g.Valid) (p : DegreeLimit) (v : Nat) :
    (incidence p.orientation g.shape v).encard = p.degree g v := by
  have hmembers : incidence p.orientation g.shape v =
      (neighbourhood p.orientation g v).members := by
    ext w
    rw [Finset.mem_coe, SparseSet.mem_members (valid_neighbourhood hg _ v),
      contains_neighbourhood hg]
    rfl
  rw [hmembers, Set.encard_coe_eq_coe_finsetCard,
    SparseSet.card_members (valid_neighbourhood hg _ v), degree]

/-- Swapping the ends of an arc of a node leads to an arc of that node only if it is a loop. -/
theorem arc_unique {d : Bool} {x : Nat}
    (hw : Shape.SameEdge d a b (arc o v w).1 (arc o v w).2)
    (hx : Shape.SameEdge d a b (arc o v x).1 (arc o v x).2) : w = x := by
  cases o <;> simp only [arc, Shape.SameEdge] at hw hx <;> omega

/-- A single edge counts at most once for a node. -/
theorem incidence_insertEdge_subset (d : Bool) (o : Orientation) (G : Shape) (a b v : Nat) :
    ∃ w, incidence o (G.insertEdge d a b) v ⊆ insert w (incidence o G v) := by
  by_cases hnew : ∃ w, Shape.SameEdge d a b (arc o v w).1 (arc o v w).2
  · obtain ⟨w, hw⟩ := hnew
    refine ⟨w, fun x hx => ?_⟩
    obtain hx | hx := hx
    · exact .inl (arc_unique hx hw)
    · exact .inr hx
  · refine ⟨v, fun x hx => .inr ?_⟩
    exact hx.resolve_left fun hsame => hnew ⟨x, hsame⟩

/-! ### The mandatory edges decide -/

/-- A node with too many mandatory edges has too many in every graph of the domain. -/
theorem not_bounded_of_exceeds (hg : g.Valid) (hexceeds : p.bound v < p.degree g.lower v)
    (hH : g.Admits H) : ¬ p.Bounded H := by
  intro hbounded
  have hnode := hasNode_of_degree_pos hg.lower (Nat.zero_lt_of_lt hexceeds)
  have hle : (p.degree g.lower v : ℕ∞) ≤ p.bound v := by
    rw [← encard_incidence hg.lower]
    exact (Set.encard_le_encard (incidence_mono hH.lower_le _ v)).trans
      (hbounded v (hH.lower_le.1 v hnode))
  exact absurd (Nat.cast_le.mp hle) (Nat.not_le_of_lt hexceeds)

/-- There is no room for an excess edge. -/
theorem not_edge_of_excess (hg : g.Valid) (hexcess : p.Excess g a b)
    (hH : H ∈ p.boundedGraphs g) : ¬ H.edge a b := by
  obtain ⟨hadmits, hbounded⟩ := hH
  obtain ⟨hoptional, v, w, -, hfull, hsame⟩ := hexcess
  intro hab
  have hw : H.edge (arc p.orientation v w).1 (arc p.orientation v w).2 := by
    obtain ⟨rfl, rfl⟩ | ⟨hd, rfl, rfl⟩ := hsame
    · exact hab
    · exact hadmits.isGraph.symm hd hab
  have hnode : H.node v := by
    cases horientation : p.orientation <;> rw [horientation] at hw
    · exact hadmits.isGraph.source hw
    · exact hadmits.isGraph.target hw
    · exact hadmits.isGraph.source hw
  have hnew : w ∉ incidence p.orientation g.lower.shape v := fun hmandatory =>
    absurd ((hg.isMandatory_sameEdge hsame).trans hmandatory) (by simp [hoptional])
  have hle : ((p.degree g.lower v + 1 : ℕ) : ℕ∞) ≤ p.bound v := calc
    ((p.degree g.lower v + 1 : ℕ) : ℕ∞)
        = (incidence p.orientation g.lower.shape v).encard + 1 := by
          rw [encard_incidence hg.lower, Nat.cast_add, Nat.cast_one]
    _ = (insert w (incidence p.orientation g.lower.shape v)).encard :=
          (Set.encard_insert_of_notMem hnew).symm
    _ ≤ (incidence p.orientation H v).encard :=
          Set.encard_le_encard (Set.insert_subset hw (incidence_mono hadmits.lower_le _ v))
    _ ≤ p.bound v := hbounded v hnode
  have := Nat.cast_le.mp hle
  omega

/-! ### Graphs of a limited domain -/

/-- The least graph of a limited domain has bounded degrees. -/
theorem Limits.bounded_lower (hg : g.Valid) (h : p.Limits g) : p.Bounded g.lower.shape := by
  intro v hv
  rw [encard_incidence hg.lower]
  exact Nat.cast_le.mpr (h v (hg.isPotentialNode hv)).degree_le

/-- In a limited domain, a possible edge can be added to the mandatory ones. -/
theorem Limits.bounded_insertEdge (hg : g.Valid) (h : p.Limits g)
    (hab : g.isPotential a b = true) :
    p.Bounded (g.lower.shape.insertEdge g.directed a b) := by
  have hnodes : ∀ v, (g.lower.shape.insertEdge g.directed a b).node v →
      g.isPotentialNode v = true := by
    rintro v (rfl | rfl | hv)
    · exact hg.upper.source hab
    · exact hg.upper.target hab
    · exact hg.isPotentialNode hv
  intro v hv
  obtain ⟨hle, hfull⟩ := h v (hnodes v hv)
  obtain heq | hlt := hle.eq_or_lt
  · -- at the bound, the new edge is a mandatory one or does not count for the node
    have hsubset : incidence p.orientation (g.lower.shape.insertEdge g.directed a b) v ⊆
        incidence p.orientation g.lower.shape v := by
      rintro w (hsame | hmandatory)
      · exact hfull heq w ((hg.isPotential_sameEdge hsame).trans hab)
      · exact hmandatory
    calc (incidence p.orientation (g.lower.shape.insertEdge g.directed a b) v).encard
        ≤ (incidence p.orientation g.lower.shape v).encard := Set.encard_le_encard hsubset
      _ = p.degree g.lower v := encard_incidence hg.lower p v
      _ = p.bound v := by rw [heq]
  · obtain ⟨w, hsubset⟩ := incidence_insertEdge_subset g.directed p.orientation g.lower.shape a b v
    calc (incidence p.orientation (g.lower.shape.insertEdge g.directed a b) v).encard
        ≤ (insert w (incidence p.orientation g.lower.shape v)).encard :=
          Set.encard_le_encard hsubset
      _ ≤ (incidence p.orientation g.lower.shape v).encard + 1 := Set.encard_insert_le _ w
      _ = ((p.degree g.lower v + 1 : ℕ) : ℕ∞) := by
          rw [encard_incidence hg.lower, Nat.cast_add, Nat.cast_one]
      _ ≤ p.bound v := Nat.cast_le.mpr hlt

/-- Every possible edge of a limited domain belongs to a graph with bounded degrees. -/
theorem Limits.exists_graph (hg : g.Valid) (h : p.Limits g) (hab : g.isPotential a b = true) :
    ∃ H ∈ p.boundedGraphs g, H.edge a b :=
  ⟨_, ⟨hg.admits_insertEdge hab, h.bounded_insertEdge hg hab⟩, .inl (GraphVar.sameEdge_self _ a b)⟩

/-! ### Propagating from scratch -/

theorem Failed.empty {failure : Failure} (hg₀ : g₀.Valid) (h : Failed p g₀ failure s) :
    ¬ ∃ H, H ∈ p.boundedGraphs g₀ := by
  rintro ⟨H, hadmits, hbounded⟩
  obtain ⟨v, -, hexceeds⟩ := h.exceeds
  exact not_bounded_of_exceeds hg₀ hexceeds hadmits hbounded

theorem Completed.domains_valid (hg₀ : g₀.Valid) (h : Completed p g₀ s) : s.domains.Valid :=
  h.filtering.narrows.valid hg₀

theorem Completed.nonempty (hg₀ : g₀.Valid) (h : Completed p g₀ s) :
    ∃ H, H ∈ p.boundedGraphs g₀ := by
  have hbounded := h.limits.bounded_lower (h.domains_valid hg₀)
  rw [h.filtering.lower_eq] at hbounded
  exact ⟨_, hg₀.admits_lower, hbounded⟩

/-- The possible edges that are left are those of the graphs with bounded degrees. -/
theorem Completed.isPotential_iff (hg₀ : g₀.Valid) (h : Completed p g₀ s) (a b : Nat) :
    s.domains.isPotential a b = true ↔ ∃ H ∈ p.boundedGraphs g₀, H.edge a b := by
  constructor
  · intro hab
    obtain ⟨H, ⟨hadmits, hbounded⟩, hHab⟩ :=
      h.limits.exists_graph (h.domains_valid hg₀) hab
    exact ⟨H, ⟨h.filtering.narrows.admits hg₀ hadmits, hbounded⟩, hHab⟩
  · rintro ⟨H, hH, hHab⟩
    by_contra hremoved
    have hexcess := h.filtering.removed a b (hH.1.le_upper.2 a b hHab)
      (Bool.eq_false_iff.mpr hremoved)
    exact not_edge_of_excess hg₀ hexcess hH hHab

/-- Propagating from scratch succeeds if and only if the domain has a graph in
which no node has more edges that count than its bound.  Then the possible
edges are those of such graphs, while the lower bound and the possible nodes
stay.  It fails exactly if the mandatory edges of some possible node exceed the
bound, and then with a wipeout. -/
theorem propagateFromScratch_exact_on_edges {g : GraphVar} (hg : g.Reachable) (p : DegreeLimit) :
    ((∃ s, propagateFromScratch ⟨p, g⟩ = .ok () s) ↔ ∃ H, H ∈ p.boundedGraphs g) ∧
      (∀ s, propagateFromScratch ⟨p, g⟩ = .ok () s →
        (∀ a b, s.domains.isPotential a b = true ↔ ∃ H ∈ p.boundedGraphs g, H.edge a b) ∧
          s.domains.lower = g.lower ∧
          ∀ v, s.domains.isPotentialNode v = g.isPotentialNode v) ∧
      ((∃ s, propagateFromScratch ⟨p, g⟩ = .error .wipeout s) ↔
        ∃ v, g.isPotentialNode v = true ∧
          p.bound v < (incidence p.orientation g.lower.shape v).encard) ∧
      ∀ failure s, propagateFromScratch ⟨p, g⟩ = .error failure s → failure = .wipeout := by
  have hvalid := hg.valid
  have hwp := propagateFromScratch_wp hvalid p
  refine ⟨⟨?_, ?_⟩, ?_, ⟨?_, ?_⟩, ?_⟩
  · intro hrun
    obtain ⟨s, hs⟩ := hrun
    exact (Attempt.of_wp_ok hwp hs).nonempty hvalid
  · intro hsolution
    cases hrun : propagateFromScratch ⟨p, g⟩ with
    | ok _ s => exact ⟨s, rfl⟩
    | error failure s => exact absurd hsolution ((Attempt.of_wp_error hwp hrun).empty hvalid)
  · intro s hs
    have hcompleted := Attempt.of_wp_ok hwp hs
    exact ⟨hcompleted.isPotential_iff hvalid, hcompleted.filtering.lower_eq,
      hcompleted.filtering.isPotentialNode⟩
  · intro hrun
    obtain ⟨s, hs⟩ := hrun
    obtain ⟨v, hv, hexceeds⟩ := (Attempt.of_wp_error hwp hs).exceeds
    refine ⟨v, hv, ?_⟩
    rw [encard_incidence hvalid.lower]
    exact Nat.cast_lt.mpr hexceeds
  · intro hexceeds
    obtain ⟨v, hv, hv'⟩ := hexceeds
    rw [encard_incidence hvalid.lower, Nat.cast_lt] at hv'
    cases hrun : propagateFromScratch ⟨p, g⟩ with
    | ok _ s =>
        obtain ⟨H, hadmits, hbounded⟩ := (Attempt.of_wp_ok hwp hrun).nonempty hvalid
        exact absurd hbounded (not_bounded_of_exceeds hvalid hv' hadmits)
    | error failure s => exact ⟨s, by rw [(Attempt.of_wp_error hwp hrun).failure_eq]⟩
  · intro failure s hs
    exact (Attempt.of_wp_error hwp hs).failure_eq

/-- An edge at a node that has reached its bound is given up, and the other one is kept. -/
theorem propagateFromScratch_exact_on_edges_fan :
    let g := (GraphVar.Mutation.enforceEdge 0 1).run.after (GraphVar.unconstrained 3 false)
    let p : DegreeLimit := { orientation := .neighbours, bounds := #[1, 2, 1] }
    g.Reachable ∧ make .neighbours (.perNode [1, 2, 1]) g = .ok p ∧
      (∃ H ∈ p.boundedGraphs g, H.edge 1 2) ∧
      g.isPotential 0 2 = true ∧ ¬ ∃ H ∈ p.boundedGraphs g, H.edge 0 2 := by
  intro g p
  have hg : g.Reachable := .mutate _ (.unconstrained 3 false)
  obtain ⟨-, hedges, -⟩ := propagateFromScratch_exact_on_edges hg p
  have heval : propagateFromScratch.passes
      (fun _ s => s.domains.isPotential 1 2 && !s.domains.isPotential 0 2) ⟨p, g⟩ = true := by
    decide
  obtain ⟨_, s, hrun, hpotential⟩ := Attempt.passes_iff.mp heval
  rw [Bool.and_eq_true, Bool.not_eq_true'] at hpotential
  obtain ⟨hiff, -⟩ := hedges s hrun
  refine ⟨hg, rfl, (hiff 1 2).mp hpotential.1, by decide, ?_⟩
  rw [← hiff 0 2, hpotential.2]
  exact Bool.false_ne_true

end DegreeLimit

end GraphInterval
