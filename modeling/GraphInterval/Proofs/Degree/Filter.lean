import GraphInterval.Degree
import GraphInterval.Proofs.GraphVar.Refinement
import GraphInterval.Proofs.Propagation

/-!
# Filtering by degree

The mandatory edges of a node that count are its degree.  A node above its
bound is mandatory, as an endpoint of a mandatory edge, so removing it wipes
the domain out.  A node at its bound loses the edges that are not mandatory.
Neither changes the lower bound, so the degrees of the original variable decide
about all nodes, and what was done for one node stays done while the others
are looked at.
-/

namespace GraphInterval

namespace DegreeLimit

abbrev State := Posted DegreeLimit GraphVar

variable {p p₀ : DegreeLimit} {g g' g₀ : GraphVar} {s : State} {o : Orientation} {v w : Nat}

/-! ### Incident edges -/

/-- The edge between a node and the other endpoint of an edge that counts. -/
def arc (orientation : Orientation) (node other : Nat) : Edge :=
  match orientation with
  | .successors | .neighbours => (node, other)
  | .predecessors => (other, node)

theorem valid_neighbourhood {g : Graph} (hg : g.Valid) (o : Orientation) (v : Nat) :
    (neighbourhood o g v).Valid := by
  cases o with
  | successors | neighbours => exact hg.successors v
  | predecessors => exact hg.predecessors v

theorem contains_neighbourhood {g : Graph} (hg : g.Valid) (o : Orientation) (v w : Nat) :
    (neighbourhood o g v).contains w = true ↔ g.hasEdge (arc o v w).1 (arc o v w).2 = true := by
  cases o with
  | successors | neighbours => exact Iff.rfl
  | predecessors => exact hg.mirror w v

theorem removeIncident_eq (o : Orientation) (v w : Nat) :
    removeIncident o v w = GraphVar.removeEdge (arc o v w).1 (arc o v w).2 := by
  cases o <;> rfl

/-- The edges that count have their node as an endpoint. -/
theorem hasNode_of_arc {g : Graph} (hg : g.Valid)
    (h : g.hasEdge (arc o v w).1 (arc o v w).2 = true) : g.hasNode v = true := by
  cases o with
  | successors | neighbours => exact hg.source h
  | predecessors => exact hg.target h

/-- The number of edges of a node that count. -/
def degree (p : DegreeLimit) (g : Graph) (v : Nat) : Nat := (neighbourhood p.orientation g v).size

theorem degree_le {g h : Graph} (hg : g.Valid) (hh : h.Valid)
    (hle : ∀ a b, g.hasEdge a b = true → h.hasEdge a b = true) (p : DegreeLimit) (v : Nat) :
    p.degree g v ≤ p.degree h v := by
  refine SparseSet.size_le_size (valid_neighbourhood hg _ v) (valid_neighbourhood hh _ v)
    fun w hw => ?_
  rw [contains_neighbourhood hg] at hw
  exact (contains_neighbourhood hh _ v w).mpr (hle _ _ hw)

/-- A graph that has no more edges at a node than a subgraph has no other ones. -/
theorem hasEdge_of_degree_le {g h : Graph} (hg : g.Valid) (hh : h.Valid)
    (hle : ∀ a b, g.hasEdge a b = true → h.hasEdge a b = true)
    (hdegree : p.degree h v ≤ p.degree g v)
    (hw : h.hasEdge (arc p.orientation v w).1 (arc p.orientation v w).2 = true) :
    g.hasEdge (arc p.orientation v w).1 (arc p.orientation v w).2 = true := by
  rw [← contains_neighbourhood hg]
  refine SparseSet.contains_of_size_le (valid_neighbourhood hg _ v) (valid_neighbourhood hh _ v)
    (fun x hx => ?_) hdegree ((contains_neighbourhood hh _ v w).mpr hw)
  rw [contains_neighbourhood hg] at hx
  exact (contains_neighbourhood hh _ v x).mpr (hle _ _ hx)

/-- A node with an edge that counts is a node of the graph. -/
theorem hasNode_of_degree_pos {g : Graph} (hg : g.Valid) (h : 0 < p.degree g v) :
    g.hasNode v = true := by
  obtain ⟨w, hw⟩ : (neighbourhood p.orientation g v).members.Nonempty := by
    rwa [← Finset.card_pos, SparseSet.card_members (valid_neighbourhood hg _ v)]
  rw [SparseSet.mem_members (valid_neighbourhood hg _ v), contains_neighbourhood hg] at hw
  exact hasNode_of_arc hg hw

/-! ### Limited nodes -/

/-- A node does not exceed its bound, and at its bound all of its possible edges are mandatory. -/
structure LimitedAt (p : DegreeLimit) (g : GraphVar) (v : Nat) : Prop where
  degree_le : p.degree g.lower v ≤ p.bound v
  full : p.degree g.lower v = p.bound v → ∀ w,
    g.isPotential (arc p.orientation v w).1 (arc p.orientation v w).2 = true →
      g.isMandatory (arc p.orientation v w).1 (arc p.orientation v w).2 = true

/-- No rule applies to any possible node. -/
def Limits (p : DegreeLimit) (g : GraphVar) : Prop :=
  ∀ v, g.isPotentialNode v = true → p.LimitedAt g v

/-- The constraint was posted on the variable. -/
structure Suits (p : DegreeLimit) (g : GraphVar) : Prop where
  supports : p.orientation.supports g.directed = true
  size_eq : p.bounds.size = g.order

theorem suits_make {bound : DegreeBound} (h : make o bound g = .ok p) : p.Suits g := by
  unfold make at h
  split at h
  next => cases h
  next hsupports =>
    have hsupports' : o.supports g.directed = true := by simpa using hsupports
    cases bound with
    | uniform bound =>
        cases h
        exact ⟨hsupports', by simp⟩
    | perNode bounds =>
        dsimp only at h
        split at h
        next hlength =>
          cases h
          exact ⟨hsupports', by simpa using hlength⟩
        next => cases h

/-- An edge that is not mandatory is excess if it counts for a node at its bound. -/
def Excess (p : DegreeLimit) (g : GraphVar) (a b : Nat) : Prop :=
  g.isMandatory a b = false ∧ ∃ v w, g.isPotentialNode v = true ∧
    p.degree g.lower v = p.bound v ∧
    Shape.SameEdge g.directed (arc p.orientation v w).1 (arc p.orientation v w).2 a b

/-- The counters of a propagator do not matter to its constraint. -/
theorem limits_congr (horientation : p.orientation = p₀.orientation)
    (hbounds : p.bounds = p₀.bounds) (g : GraphVar) : p.Limits g ↔ p₀.Limits g := by
  have hdegree : p.degree = p₀.degree := by
    unfold degree
    rw [horientation]
  have hbound : p.bound = p₀.bound := by
    unfold bound
    rw [hbounds]
  refine ⟨fun h v hv => ?_, fun h v hv => ?_⟩
  · obtain ⟨hle, hfull⟩ := h v hv
    rw [hdegree, hbound] at hle hfull
    exact ⟨hle, horientation ▸ hfull⟩
  · obtain ⟨hle, hfull⟩ := h v hv
    refine ⟨?_, ?_⟩
    · rwa [hdegree, hbound]
    · rw [hdegree, hbound, horientation]
      exact hfull

/-- In a limited refinement, no node exceeds its bound by the edges that were mandatory before. -/
theorem Limits.degree_le (hg : g.Valid) (hg' : g'.Valid) (h : p.Limits g') (href : g'.Refines g)
    (v : Nat) : p.degree g.lower v ≤ p.bound v := by
  have hmono := DegreeLimit.degree_le hg.lower hg'.lower href.lower_le.2 p v
  obtain hzero | hpos := Nat.eq_zero_or_pos (p.degree g'.lower v)
  · omega
  · have hnode := hg'.isPotentialNode (hasNode_of_degree_pos hg'.lower hpos)
    exact hmono.trans (h v hnode).degree_le

/-- A limited refinement has no excess edge. -/
theorem Limits.not_excess (hg : g.Valid) (hg' : g'.Valid) (h : p.Limits g')
    (href : g'.Refines g) {a b : Nat} (hab : g'.isPotential a b = true) : ¬ p.Excess g a b := by
  rintro ⟨hnot, v, w, -, hfull, hsame⟩
  have harc : g'.isPotential (arc p.orientation v w).1 (arc p.orientation v w).2 = true :=
    (hg'.isPotential_sameEdge (href.directed_eq ▸ hsame)).symm.trans hab
  obtain ⟨hle, hfull'⟩ := h v (hasNode_of_arc hg'.upper harc)
  have hmono := DegreeLimit.degree_le hg.lower hg'.lower href.lower_le.2 p v
  have hmandatory := hfull' (by omega) w harc
  have hmandatory' := hasEdge_of_degree_le hg.lower hg'.lower href.lower_le.2 (by omega)
    hmandatory
  exact absurd (hnot.symm.trans ((hg.isMandatory_sameEdge hsame).trans hmandatory')) (by simp)

/-- The constraint is the same, and only excess edges were removed. -/
structure Filtering (p₀ : DegreeLimit) (g₀ : GraphVar) (s : State) : Prop where
  orientation_eq : s.propagator.orientation = p₀.orientation
  bounds_eq : s.propagator.bounds = p₀.bounds
  narrows : g₀.Narrows s.domains
  lower_eq : s.domains.lower = g₀.lower
  isPotentialNode : ∀ v, s.domains.isPotentialNode v = g₀.isPotentialNode v
  removed : ∀ a b, g₀.isPotential a b = true → s.domains.isPotential a b = false →
    p₀.Excess g₀ a b

/-- The propagator stopped at a node above its bound. -/
structure Failed (p₀ : DegreeLimit) (g₀ : GraphVar) (failure : Failure) (s : State) : Prop where
  failure_eq : failure = .wipeout
  filtering : Filtering p₀ g₀ s
  exceeds : ∃ v, g₀.isPotentialNode v = true ∧ p₀.bound v < p₀.degree g₀.lower v

/-- Counters and buffers are of no concern. -/
theorem Filtering.replace (h : Filtering p₀ g₀ s) {q : DegreeLimit}
    (horientation : q.orientation = s.propagator.orientation)
    (hbounds : q.bounds = s.propagator.bounds) : Filtering p₀ g₀ { s with propagator := q } :=
  { h with
    orientation_eq := horientation.trans h.orientation_eq
    bounds_eq := hbounds.trans h.bounds_eq }

theorem Filtering.degree_eq (h : Filtering p₀ g₀ s) (v : Nat) :
    s.propagator.degree s.domains.lower v = p₀.degree g₀.lower v := by
  rw [degree, degree, h.orientation_eq, h.lower_eq]

theorem Filtering.bound_eq (h : Filtering p₀ g₀ s) (v : Nat) :
    s.propagator.bound v = p₀.bound v := by
  rw [bound, bound, h.bounds_eq]

/-- A node stays limited while edges are removed. -/
theorem LimitedAt.of_lower_eq (hg : g.Valid) (h : p.LimitedAt g v) (hnarrows : g.Narrows g')
    (hlower : g'.lower = g.lower) : p.LimitedAt g' v := by
  refine ⟨hlower.symm ▸ h.degree_le, fun hfull w hw => ?_⟩
  rw [hlower] at hfull
  rw [GraphVar.isMandatory, hlower]
  exact h.full hfull w (hnarrows.isPotential hg hw)

/-! ### One node -/

theorem removeOptional_wp (hg₀ : g₀.Valid) (h : Filtering p₀ g₀ s)
    (hexcess : p₀.Excess g₀ (arc o v w).1 (arc o v w).2) :
    (removeOptional o v w).wp
      (fun _ s' => Filtering p₀ g₀ s' ∧ s.domains.Narrows s'.domains ∧
        s'.domains.isPotential (arc o v w).1 (arc o v w).2 = false)
      (fun _ _ => False) s := by
  have hvalid := h.narrows.valid hg₀
  have hdirected := h.narrows.directed hg₀
  rw [removeOptional, Attempt.wp_bind, Posted.onDomains, Attempt.wp_within, removeIncident_eq]
  refine Attempt.wp_mono (Attempt.wp_and
    (GraphVar.removeEdge_wp hvalid (arc o v w).1 (arc o v w).2)
    (GraphVar.removeEdge_keepsNodes s.domains (arc o v w).1 (arc o v w).2)) ?_ ?_
  · rintro changed g' ⟨⟨hnarrows, hgone, hlower, -, hchanged, hsame⟩, hnodes⟩
    have hfiltering : ∀ p : DegreeLimit, p.orientation = s.propagator.orientation →
        p.bounds = s.propagator.bounds → Filtering p₀ g₀ ⟨p, g'⟩ := by
      intro p horientation hbounds
      refine ⟨horientation.trans h.orientation_eq, hbounds.trans h.bounds_eq,
        h.narrows.trans hnarrows, hlower.trans h.lower_eq,
        fun x => (hnodes x).trans (h.isPotentialNode x), fun a b hab hnot => ?_⟩
      cases hmiddle : s.domains.isPotential a b with
      | false => exact h.removed a b hab hmiddle
      | true =>
          cases changed with
          | false =>
              rw [hsame rfl, hmiddle] at hnot
              cases hnot
          | true =>
              -- the removed edge is the excess one, in one of its orders
              have hedge : Shape.SameEdge g₀.directed (arc o v w).1 (arc o v w).2 a b := by
                by_contra hother
                rw [← hdirected] at hother
                rw [((hchanged rfl).2.2 a b).mpr ⟨hother, hmiddle⟩] at hnot
                cases hnot
              obtain ⟨hnotM, x, y, hx, hfull, hxy⟩ := hexcess
              refine ⟨(hg₀.isMandatory_sameEdge hedge).trans hnotM, x, y, hx, hfull, ?_⟩
              exact hxy.trans hedge
    rw [Attempt.wp_ite]
    exact ⟨fun _ => ⟨hfiltering _ rfl rfl, hnarrows, hgone⟩,
      fun _ => ⟨hfiltering _ rfl rfl, hnarrows, hgone⟩⟩
  · rintro failure g' ⟨⟨-, -, hforced⟩, -⟩
    have hmandatory := hforced _ hvalid.admits_lower
    rw [h.lower_eq] at hmandatory
    exact absurd (hexcess.1.symm.trans hmandatory) (by simp)

/-- A node below its bound, or without further edges, is limited. -/
theorem limitedAt_of_not (hg : g.Valid) (hle : ¬ p.bound v < p.degree g.lower v)
    (hnot : ¬ (p.degree g.lower v = p.bound v ∧ p.degree g.lower v < p.degree g.upper v)) :
    p.LimitedAt g v := by
  refine ⟨Nat.le_of_not_lt hle, fun hfull w hw => ?_⟩
  have hdegree : p.degree g.upper v ≤ p.degree g.lower v :=
    Nat.le_of_not_lt fun hlt => hnot ⟨hfull, hlt⟩
  exact hasEdge_of_degree_le hg.lower hg.upper hg.le.2 hdegree hw

/-- The other ends of the edges that are possible and not mandatory. -/
theorem mem_optionalNeighbours (hg : g.Valid) (o : Orientation) (v w : Nat) :
    w ∈ optionalNeighbours o v g ↔
      g.isPotential (arc o v w).1 (arc o v w).2 = true ∧
        g.isMandatory (arc o v w).1 (arc o v w).2 = false := by
  rw [optionalNeighbours, List.mem_filter, SparseSet.mem_toList (valid_neighbourhood hg.upper _ v),
    contains_neighbourhood hg.upper, Bool.not_eq_true', ← Bool.not_eq_true,
    contains_neighbourhood hg.lower, ← Bool.not_eq_true]
  rfl

/-- A node that has reached its bound loses its other edges, and then is limited. -/
theorem visitEach_removeOptional_wp (hg₀ : g₀.Valid) (h : Filtering p₀ g₀ s)
    (hv : g₀.isPotentialNode v = true) (hfull : p₀.degree s.domains.lower v = p₀.bound v) :
    (Posted.visitEach incidentBuffer (optionalNeighbours p₀.orientation v)
        (removeOptional p₀.orientation v)).wp
      (fun _ s' => Filtering p₀ g₀ s' ∧ s.domains.Narrows s'.domains ∧ p₀.LimitedAt s'.domains v)
      (fun _ _ => False) s := by
  have hvalid := h.narrows.valid hg₀
  have hmem := mem_optionalNeighbours hvalid p₀.orientation v
  rw [Posted.wp_visitEach]
  refine Attempt.wp_mono (Attempt.wp_forM_each
    (I := fun t => Filtering p₀ g₀ t ∧ s.domains.Narrows t.domains)
    (D := fun w t =>
      t.domains.isPotential (arc p₀.orientation v w).1 (arc p₀.orientation v w).2 = false)
    (E := fun _ _ => False) (fun w hw t ht => ?_) ⟨h.replace rfl rfl, .refl⟩) ?_ fun _ _ hf => hf
  · obtain ⟨hfiltering, hnarrows⟩ := ht
    have hexcess : p₀.Excess g₀ (arc p₀.orientation v w).1 (arc p₀.orientation v w).2 := by
      refine ⟨?_, v, w, hv, h.lower_eq ▸ hfull, GraphVar.sameEdge_self _ _ _⟩
      rw [GraphVar.isMandatory, ← h.lower_eq]
      exact ((hmem w).mp hw).2
    refine Attempt.wp_mono (removeOptional_wp hg₀ hfiltering hexcess) ?_ fun _ _ hf => hf
    rintro _ t' ⟨hfiltering', hnarrows', hgone⟩
    refine ⟨⟨hfiltering', hnarrows.trans hnarrows'⟩, hgone, fun x _ hx => ?_⟩
    rw [Bool.eq_false_iff] at hx ⊢
    exact fun hx' => hx (hnarrows'.isPotential (hfiltering.narrows.valid hg₀) hx')
  · rintro _ t ⟨⟨hfiltering, hnarrows⟩, hgone⟩
    refine ⟨hfiltering, hnarrows, ?_, fun _ w hw => ?_⟩
    · rw [hfiltering.lower_eq, ← h.lower_eq]
      exact hfull.le
    · by_contra hoptional
      have hw' := hnarrows.isPotential hvalid hw
      have hoptional' : s.domains.isMandatory (arc p₀.orientation v w).1
          (arc p₀.orientation v w).2 = false :=
        Bool.eq_false_iff.mpr fun hM => hoptional (hnarrows.isMandatory hvalid hM)
      exact absurd ((hgone w ((hmem w).mpr ⟨hw', hoptional'⟩)).symm.trans hw) (by simp)

theorem limitNode_wp (hg₀ : g₀.Valid) (h : Filtering p₀ g₀ s)
    (hv : g₀.isPotentialNode v = true) :
    (limitNode v).wp
      (fun _ s' => Filtering p₀ g₀ s' ∧ s.domains.Narrows s'.domains ∧ p₀.LimitedAt s'.domains v)
      (Failed p₀ g₀) s := by
  have hvalid := h.narrows.valid hg₀
  rw [limitNode, Attempt.wp_bind, Attempt.wp_get]
  dsimp only
  rw [h.bound_eq, h.orientation_eq, Attempt.wp_ite]
  change (p₀.bound v < p₀.degree s.domains.lower v → _) ∧
    (¬ p₀.bound v < p₀.degree s.domains.lower v → _)
  refine ⟨fun hexceeds => ?_, fun hle => ?_⟩
  · have hmandatory := hasNode_of_degree_pos hvalid.lower (Nat.zero_lt_of_lt hexceeds)
    rw [Attempt.wp_bind, Posted.onDomains, Attempt.wp_within, GraphVar.removeNode,
      Attempt.wp_bind, Attempt.wp_get, Attempt.wp_ite]
    exact ⟨fun _ => ⟨rfl, h, v, hv, h.lower_eq ▸ hexceeds⟩, fun hnot => absurd hmandatory hnot⟩
  · rw [Attempt.wp_ite]
    change (p₀.degree s.domains.lower v = p₀.bound v ∧
      p₀.degree s.domains.lower v < p₀.degree s.domains.upper v → _) ∧
      (¬ (p₀.degree s.domains.lower v = p₀.bound v ∧
      p₀.degree s.domains.lower v < p₀.degree s.domains.upper v) → _)
    refine ⟨fun hfull => ?_, fun hnot => ⟨h, .refl, limitedAt_of_not hvalid hle hnot⟩⟩
    exact Attempt.wp_mono (visitEach_removeOptional_wp hg₀ h hv hfull.1) (fun _ _ h' => h')
      fun _ _ hf => hf.elim

/-! ### Propagating from scratch -/

/-- Only excess edges were removed, and no rule applies any more. -/
structure Completed (p₀ : DegreeLimit) (g₀ : GraphVar) (s : State) : Prop where
  filtering : Filtering p₀ g₀ s
  limits : p₀.Limits s.domains

theorem propagateFromScratch_wp (hg : g.Valid) (p : DegreeLimit) :
    propagateFromScratch.wp (fun _ s' => Completed p g s') (Failed p g) ⟨p, g⟩ := by
  have hstart : Filtering p g ⟨{ p with numPropagations := p.numPropagations + 1 }, g⟩ :=
    ⟨rfl, rfl, .refl, rfl, fun _ => rfl, fun a b hab hnot => absurd (hab.symm.trans hnot) (by simp)⟩
  rw [propagateFromScratch, Attempt.wp_bind, Posted.update, Attempt.wp_modify, Posted.wp_visitEach]
  refine Attempt.wp_mono (Attempt.wp_forM_each (I := Filtering p g)
    (D := fun v t => p.LimitedAt t.domains v) (fun v hv t hfiltering => ?_)
    (hstart.replace rfl rfl)) ?_
    fun _ _ hf => hf
  · refine Attempt.wp_mono (limitNode_wp hg hfiltering ((Graph.mem_nodes hg.upper).mp hv)) ?_
      fun _ _ hf => hf
    rintro _ t' ⟨hfiltering', hnarrows, hlimited⟩
    exact ⟨hfiltering', hlimited, fun _ _ hx => hx.of_lower_eq (hfiltering.narrows.valid hg) hnarrows
      (hfiltering'.lower_eq.trans hfiltering.lower_eq.symm)⟩
  · rintro _ t ⟨hfiltering, hdone⟩
    refine ⟨hfiltering, fun v hv => hdone v ((Graph.mem_nodes hg.upper).mpr ?_)⟩
    rwa [hfiltering.isPotentialNode] at hv

end DegreeLimit

end GraphInterval
