import GraphInterval.Proofs.GraphVar.Basic

/-!
# What mutations do to the domain

A mutation fails exactly if no graph of the domain satisfies it, and then
changes nothing; otherwise it keeps the graphs that satisfy it.  It answers
whether something was undecided, and lowers the number of undecided edges by
one for every edge that it decides.
-/

namespace GraphInterval

namespace GraphVar

variable {g g' : GraphVar}

/-! ### The number of undecided edges -/

theorem Valid.numEdges_le (hg : g.Valid) : g.lower.numEdges ≤ g.upper.numEdges :=
  Graph.numEdges_le hg.lower hg.upper hg.directed_eq hg.le

theorem numEdges_includeWhole (hg : g.Valid) {a b : Nat}
    (hpotential : g.isPotential a b = true) (hnot : g.isMandatory a b = false) :
    (g.includeWhole a b).lower.numEdges = g.lower.numEdges + 1 := by
  obtain ⟨hnarrows, -, hedge, -⟩ := includeWhole_spec hg hpotential hnot
  generalize g.includeWhole a b = g' at hnarrows hedge
  have hvalid := hnarrows.valid hg
  have hdirected : g'.lower.directed = g.lower.directed := by
    rw [hvalid.directed_eq, hg.directed_eq]
    exact hnarrows.directed hg
  have hlt := hg.lt_order hpotential
  have ha : a < g.lower.order := hg.order_eq.symm ▸ hlt.1
  have hb : b < g.lower.order := hg.order_eq.symm ▸ hlt.2
  rw [← Graph.numEdges_addEdge hg.lower ha hb hnot]
  refine Graph.numEdges_congr hvalid.lower (hg.lower.addEdge ha hb)
    (hdirected.trans (Graph.directed_addEdge _ _ _).symm) fun x y => ?_
  rw [Graph.hasEdge_addEdge hg.lower ha hb, hg.directed_eq]
  exact hedge x y

/-! ### Single edges and nodes -/

theorem enforceEdge_wp (hg : g.Valid) (a b : Nat) :
    (enforceEdge a b).wp
      (fun changed g' => Narrows g g' ∧ g'.isMandatory a b = true ∧
        (∀ H, g.Admits H → H.edge a b → g'.Admits H) ∧
        (changed = true → g.isMandatory a b = false ∧ g'.upper = g.upper ∧
          g'.lower.numEdges = g.lower.numEdges + 1 ∧
          ∀ x y, g'.isMandatory x y = true ↔
            Shape.SameEdge g.directed a b x y ∨ g.isMandatory x y = true) ∧
        (changed = false → g' = g))
      (fun failure g' => failure = .wipeout ∧ g' = g ∧ ∀ H, g.Admits H → ¬ H.edge a b) g := by
  rw [Attempt.wp, enforceEdge_eq hg]
  cases hpotential : g.isPotential a b with
  | false =>
      refine ⟨rfl, rfl, fun H hH hab => ?_⟩
      have := hH.le_upper.2 a b hab
      exact absurd (hpotential.symm.trans this) (by simp)
  | true =>
      cases hmandatory : g.isMandatory a b with
      | true =>
          refine ⟨.refl, hmandatory, fun H hH _ => hH, fun h => ?_, fun _ => rfl⟩
          simp at h
      | false =>
          obtain ⟨hnarrows, hupper, hedge, hnode⟩ := includeWhole_spec hg hpotential hmandatory
          refine ⟨hnarrows, (hedge a b).mpr (.inl (sameEdge_self _ a b)), fun H hH hab => ?_,
            fun _ => ⟨rfl, hupper, numEdges_includeWhole hg hpotential hmandatory, hedge⟩,
            fun h => by simp at h⟩
          refine ⟨hnarrows.directed hg ▸ hH.isGraph, ⟨fun v hv => ?_, fun x y hxy => ?_⟩,
            hupper ▸ hH.le_upper⟩
          · obtain rfl | rfl | hv := (hnode v).mp hv
            · exact hH.isGraph.source hab
            · exact hH.isGraph.target hab
            · exact hH.lower_le.1 v hv
          · obtain (⟨rfl, rfl⟩ | ⟨hd, rfl, rfl⟩) | hxy := (hedge x y).mp hxy
            · exact hab
            · exact hH.isGraph.symm hd hab
            · exact hH.lower_le.2 x y hxy

theorem removeEdge_wp (hg : g.Valid) (a b : Nat) :
    (removeEdge a b).wp
      (fun changed g' => Narrows g g' ∧ g'.isPotential a b = false ∧ g'.lower = g.lower ∧
        (∀ H, g.Admits H → ¬ H.edge a b → g'.Admits H) ∧
        (changed = true → g.isPotential a b = true ∧
          g'.upper.numEdges + 1 = g.upper.numEdges ∧
          ∀ x y, g'.isPotential x y = true ↔
            ¬ Shape.SameEdge g.directed a b x y ∧ g.isPotential x y = true) ∧
        (changed = false → g' = g))
      (fun failure g' => failure = .wipeout ∧ g' = g ∧ ∀ H, g.Admits H → H.edge a b) g := by
  rw [Attempt.wp, removeEdge_eq]
  cases hmandatory : g.isMandatory a b with
  | true => exact ⟨rfl, rfl, fun H hH => hH.lower_le.2 a b hmandatory⟩
  | false =>
      cases hpotential : g.isPotential a b with
      | false =>
          refine ⟨.refl, hpotential, rfl, fun H hH _ => hH, fun h => ?_, fun _ => rfl⟩
          simp at h
      | true =>
          have hnarrows : Narrows g (g.excludeEdge a b) :=
            .single (.excludeEdge hpotential hmandatory)
          have hedge := isPotential_excludeEdge hg a b
          refine ⟨hnarrows, ?_, rfl, fun H hH hab => ?_,
            fun _ => ⟨rfl, Graph.numEdges_removeEdge hg.upper hpotential, hedge⟩,
            fun h => by simp at h⟩
          · rw [Bool.eq_false_iff]
            exact fun htrue => ((hedge a b).mp htrue).1 (sameEdge_self _ a b)
          · refine ⟨hnarrows.directed hg ▸ hH.isGraph, hH.lower_le, fun v hv => ?_,
              fun x y hxy => ?_⟩
            · have hv' : (g.upper.removeEdge a b).hasNode v = true := by
                rw [Graph.hasNode_removeEdge]
                exact hH.le_upper.1 v hv
              exact hv'
            · refine (hedge x y).mpr ⟨fun hsame => hab ?_, hH.le_upper.2 x y hxy⟩
              obtain ⟨rfl, rfl⟩ | ⟨hd, rfl, rfl⟩ := hsame
              · exact hxy
              · exact hH.isGraph.symm hd hxy

/-- Excluding an edge excludes no node. -/
theorem removeEdge_keepsNodes (g : GraphVar) (a b : Nat) :
    (removeEdge a b).wp (fun _ g' => ∀ v, g'.isPotentialNode v = g.isPotentialNode v)
      (fun _ _ => True) g := by
  rw [Attempt.wp, removeEdge_eq]
  cases hmandatory : g.isMandatory a b with
  | true => trivial
  | false =>
      cases hpotential : g.isPotential a b with
      | false => exact fun _ => rfl
      | true => exact fun v => Graph.hasNode_removeEdge g.upper a b v

theorem enforceNode_wp (v : Nat) :
    (enforceNode v).wp (fun _ g' => Narrows g g') (fun failure g' => failure = .wipeout ∧ g' = g)
      g := by
  rw [Attempt.wp, enforceNode_eq]
  cases hpotential : g.isPotentialNode v with
  | false => exact ⟨rfl, rfl⟩
  | true =>
      cases hmandatory : g.isMandatoryNode v with
      | true => exact .refl
      | false => exact .single (.includeNode hpotential hmandatory)

/-! ### Removing a node -/

/-- While the edges of a node that is not mandatory are removed, the lower bound
stays, and so does the node. -/
structure Isolating (g : GraphVar) (v : Nat) (s : GraphVar) : Prop where
  narrows : Narrows g s
  lower_eq : s.lower = g.lower
  isPotentialNode : s.isPotentialNode v = true

theorem Isolating.removeEdge (hg : g.Valid) {v a b : Nat} {s : GraphVar}
    (hnot : g.isMandatory a b = false) (h : Isolating g v s) :
    (GraphVar.removeEdge a b).wp
      (fun _ s' => Isolating g v s' ∧ s'.isPotential a b = false ∧
        ∀ x y, s.isPotential x y = false → s'.isPotential x y = false)
      (fun _ _ => False) s := by
  have hvalid := h.narrows.valid hg
  have hnot' : s.isMandatory a b = false := by
    simpa [isMandatory, h.lower_eq] using hnot
  refine Attempt.wp_mono (Attempt.wp_and (removeEdge_wp hvalid a b)
    (removeEdge_keepsNodes s a b)) ?_ ?_
  · rintro _ s' ⟨⟨hnarrows, hfalse, hlower, -⟩, hnodes⟩
    refine ⟨⟨h.narrows.trans hnarrows, hlower.trans h.lower_eq,
      (hnodes v).trans h.isPotentialNode⟩, hfalse, fun x y hxy => ?_⟩
    rw [Bool.eq_false_iff] at hxy ⊢
    exact fun hxy' => hxy (hnarrows.isPotential hvalid hxy')
  · rintro _ _ ⟨⟨-, -, hforced⟩, -⟩
    exact absurd (hnot'.symm.trans (hforced _ hvalid.admits_lower)) (by simp)

/-- Removing a list of edges, none of which is mandatory. -/
theorem Isolating.removeEach (hg : g.Valid) {v : Nat} {s : GraphVar} (h : Isolating g v s)
    (e : Nat → Edge) (hnot : ∀ x, g.isMandatory (e x).1 (e x).2 = false) (l : List Nat) :
    (l.forM fun x => discard (GraphVar.removeEdge (e x).1 (e x).2)).wp
      (fun _ s' => (Isolating g v s' ∧
          ∀ x y, s.isPotential x y = false → s'.isPotential x y = false) ∧
        ∀ x ∈ l, s'.isPotential (e x).1 (e x).2 = false)
      (fun _ _ => False) s := by
  refine Attempt.wp_forM_each
    (I := fun t => Isolating g v t ∧ ∀ x y, s.isPotential x y = false → t.isPotential x y = false)
    (D := fun x t => t.isPotential (e x).1 (e x).2 = false) (fun x _ t ht => ?_)
    ⟨h, fun _ _ hxy => hxy⟩
  rw [Attempt.wp_discard]
  refine Attempt.wp_mono (ht.1.removeEdge hg (hnot x)) ?_ fun _ _ hf => hf
  rintro _ t' ⟨ht', hgone, hkept⟩
  exact ⟨⟨ht', fun y z hyz => hkept y z (ht.2 y z hyz)⟩, hgone, fun y _ => hkept _ _⟩

theorem removeIncidentEdges_wp (hg : g.Valid) {v : Nat}
    (hpotential : g.isPotentialNode v = true) (hnot : g.isMandatoryNode v = false) :
    (removeIncidentEdges v).wp
      (fun _ s => Isolating g v s ∧
        ∀ x, s.isPotential v x = false ∧ s.isPotential x v = false)
      (fun _ _ => False) g := by
  have hfree : ∀ x, g.isMandatory v x = false ∧ g.isMandatory x v = false := by
    intro x
    constructor <;> rw [Bool.eq_false_iff] <;> intro htrue
    · exact absurd (hnot.symm.trans (hg.lower.source htrue)) (by simp)
    · exact absurd (hnot.symm.trans (hg.lower.target htrue)) (by simp)
  rw [removeIncidentEdges, Attempt.wp_bind, Attempt.wp_get, Attempt.wp_bind]
  have hstart : Isolating g v g := ⟨.refl, rfl, hpotential⟩
  refine Attempt.wp_mono (hstart.removeEach hg (fun x => (v, x)) (fun x => (hfree x).1) _) ?_
    fun _ _ hf => hf
  rintro _ s ⟨⟨hs, -⟩, hgone⟩
  have hvalid := hs.narrows.valid hg
  have hout : ∀ x, s.isPotential v x = false := by
    intro x
    by_contra hx
    rw [Bool.not_eq_false] at hx
    have hmem := (Graph.mem_successors hg.upper).mpr (hs.narrows.isPotential hg hx)
    exact absurd ((hgone x hmem).symm.trans hx) (by simp)
  rw [Attempt.wp_ite]
  constructor
  · intro hd
    rw [Attempt.wp_bind, Attempt.wp_get]
    refine Attempt.wp_mono (hs.removeEach hg (fun x => (x, v)) (fun x => (hfree x).2) _) ?_
      fun _ _ hf => hf
    rintro _ t ⟨⟨ht, hkept⟩, hgone'⟩
    refine ⟨ht, fun x => ⟨hkept v x (hout x), ?_⟩⟩
    cases hx : s.isPotential x v with
    | false => exact hkept x v hx
    | true => exact hgone' x ((Graph.mem_predecessors hvalid.upper).mpr hx)
  · intro hd
    refine ⟨hs, fun x => ⟨hout x, Bool.eq_false_iff.mpr fun htrue => ?_⟩⟩
    have hundirected : s.upper.directed = false := by
      have hsame : s.directed = g.directed := hs.narrows.directed hg
      rw [show s.upper.directed = s.directed from rfl, hsame]
      simpa using hd
    exact absurd ((hout x).symm.trans (hvalid.upper.symm hundirected htrue)) (by simp)

/-- A possible node that is not mandatory is dropped after its edges are removed; whatever holds
once they are removed may be used. -/
theorem removeNode_wp_of (hg : g.Valid) (v : Nat) {P : GraphVar → Prop}
    {Q : Bool → GraphVar → Prop} {E : Failure → GraphVar → Prop}
    (hedges : (removeIncidentEdges v).wp (fun _ s => P s) (fun _ _ => True) g)
    (hmandatory : g.isMandatoryNode v = true → E .wipeout g)
    (habsent : g.isPotentialNode v = false → Q false g)
    (hremoved : g.isPotentialNode v = true → ∀ s, P s → Narrows g (s.excludeNode v) →
      s.upper.Valid → Q true (s.excludeNode v)) : (removeNode v).wp Q E g := by
  rw [removeNode, Attempt.wp_bind, Attempt.wp_get, Attempt.wp_ite]
  refine ⟨hmandatory, fun hnot => ?_⟩
  rw [Attempt.wp_ite]
  refine ⟨fun h => habsent (by simpa using h), fun h => ?_⟩
  have hpotential : g.isPotentialNode v = true := by simpa using h
  have hnot' : g.isMandatoryNode v = false := by simpa using hnot
  rw [Attempt.wp_bind]
  refine Attempt.wp_mono (Attempt.wp_and (removeIncidentEdges_wp hg hpotential hnot') hedges) ?_
    fun _ _ h => h.1.elim
  rintro _ s ⟨⟨hs, hisolated⟩, hP⟩
  have hupper := (hs.narrows.valid hg).upper
  have hdrop : dropNode v s = .ok () (s.excludeNode v) := by
    rw [dropNode, Graph.dropIsolated_eq hupper hisolated]
    rfl
  have hmandatory' : s.isMandatoryNode v = false := by
    rw [isMandatoryNode, hs.lower_eq]
    exact hnot'
  rw [Attempt.wp_bind, Attempt.wp, hdrop]
  exact hremoved hpotential s hP
    (hs.narrows.tail (.excludeNode hs.isPotentialNode hmandatory' hisolated)) hupper

theorem removeNode_wp (hg : g.Valid) (v : Nat) :
    (removeNode v).wp (fun _ g' => Narrows g g')
      (fun failure g' => failure = .wipeout ∧ g' = g) g :=
  removeNode_wp_of hg v (Attempt.wp_trivial _ g) (fun _ => ⟨rfl, rfl⟩) (fun _ => .refl)
    fun _ _ _ hnarrows _ => hnarrows

end GraphVar

end GraphInterval
