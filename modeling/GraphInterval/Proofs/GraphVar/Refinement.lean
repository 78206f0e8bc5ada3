import GraphInterval.Proofs.GraphVar.Reachable

/-!
# Comparing domains

One variable refines another if its bounds lie between those of the other.
Narrowing leads to a refinement, and as every change decides something that was
undecided, it leads to an equal domain only if nothing was changed.  So the
number of events tells whether a domain changed, and two variables that refine
each other have equal bounds.
-/

namespace GraphInterval

namespace GraphVar

/-- The bounds of one variable lie between those of another. -/
structure Refines (h g : GraphVar) : Prop where
  order_eq : h.order = g.order
  directed_eq : h.directed = g.directed
  lower_le : g.lower.shape ≤ h.lower.shape
  upper_le : h.upper.shape ≤ g.upper.shape

variable {g g' g₁ h : GraphVar} {H : Shape}

theorem Refines.refl (g : GraphVar) : g.Refines g :=
  ⟨rfl, rfl, Shape.le_refl _, Shape.le_refl _⟩

theorem Refines.trans (h₁ : g.Refines g') (h₂ : g'.Refines g₁) : g.Refines g₁ :=
  ⟨h₁.order_eq.trans h₂.order_eq, h₁.directed_eq.trans h₂.directed_eq,
    Shape.le_trans h₂.lower_le h₁.lower_le, Shape.le_trans h₁.upper_le h₂.upper_le⟩

theorem Refines.antisymm (hle : g.Refines h) (hge : h.Refines g) : Agree g h :=
  ⟨hle.order_eq, hle.directed_eq, Shape.le_antisymm hge.lower_le hle.lower_le,
    Shape.le_antisymm hle.upper_le hge.upper_le⟩

/-- A refinement has fewer graphs. -/
theorem Refines.admits (href : h.Refines g) (hH : h.Admits H) : g.Admits H :=
  ⟨href.directed_eq ▸ hH.isGraph, Shape.le_trans href.lower_le hH.lower_le,
    Shape.le_trans hH.le_upper href.upper_le⟩

theorem Narrows.refines (hg : g.Valid) (h : Narrows g g') : g'.Refines g := by
  obtain ⟨-, horder, hdirected, hlower, hupper⟩ := h.preserves hg
  exact ⟨horder, hdirected, hlower, hupper⟩

/-! ### Changes are visible -/

/-- A change decides something that was not decided. -/
theorem Change.not_refines (hg : g.Valid) (hchange : Change g g') : ¬ g.Refines g' := by
  intro href
  cases hchange with
  | @includeNode v hpotential hnot =>
      have hv : v < g.lower.order := hg.order_eq ▸ hg.upper.lt_of_hasNode hpotential
      have hnode := href.lower_le.1 v ((Graph.hasNode_addNode hg.lower hv v).mpr (.inl rfl))
      exact absurd (hnot.symm.trans hnode) (by simp)
  | @includeEdge a b hpotential hnot ha hb =>
      have hedge := href.lower_le.2 a b
        ((isMandatory_includeEdge hg hpotential a b).mpr (.inl (sameEdge_self _ a b)))
      exact absurd (hnot.symm.trans hedge) (by simp)
  | @excludeEdge a b hpotential hnot =>
      have hedge := (isPotential_excludeEdge hg a b a b).mp (href.upper_le.2 a b hpotential)
      exact hedge.1 (sameEdge_self _ a b)
  | @excludeNode v hpotential hnot hisolated =>
      have hnode := (Graph.hasNode_erase hg.upper v v).mp (href.upper_le.1 v hpotential)
      exact hnode.1 rfl

/-- A narrowed variable that admits as much as before was not changed. -/
theorem Narrows.eq_of_refines (hg : g.Valid) (h : Narrows g g') (href : g.Refines g') :
    g' = g := by
  obtain rfl | ⟨g₁, hchange, hrest⟩ := Relation.ReflTransGen.cases_head h
  · rfl
  · have hback : g.Refines g₁ := href.trans (Narrows.refines (hchange.valid hg) hrest)
    exact absurd hback (hchange.not_refines hg)

theorem Change.numEvents (hchange : Change g g') : g'.numEvents = g.numEvents + 1 := by
  cases hchange <;> exact Array.size_push ..

theorem Narrows.numEvents_le (h : Narrows g g') : g.numEvents ≤ g'.numEvents := by
  induction h with
  | refl => exact Nat.le_refl _
  | tail _ hchange ih => exact ih.trans (Nat.le_of_lt (hchange.numEvents ▸ Nat.lt_succ_self _))

/-- Every change adds an event, so a log that did not grow belongs to an unchanged variable. -/
theorem Narrows.eq_of_numEvents (h : Narrows g g') (hevents : g'.numEvents = g.numEvents) :
    g' = g := by
  obtain rfl | ⟨g₁, hchange, hrest⟩ := Relation.ReflTransGen.cases_head h
  · rfl
  · have hlt := hchange.numEvents
    have hle := Narrows.numEvents_le hrest
    omega

/-! ### Refinement by a set of graphs -/

/-- A variable that admits the graphs of a set is refined by one whose nodes are given by them. -/
theorem Refines.of_graphs {S : Set Shape} (horder : h.order = g.order)
    (hdirected : h.directed = g.directed) (hS : ∀ H ∈ S, g.Admits H)
    (hnode : ∀ v, (∀ H ∈ S, H.node v) → h.lower.shape.node v)
    (hedge : ∀ a b, g.isMandatory a b = true → h.isMandatory a b = true)
    (hupper : (∀ v, h.upper.shape.node v → ∃ H ∈ S, H.node v) ∧
      ∀ a b, h.upper.shape.edge a b → ∃ H ∈ S, H.edge a b) : h.Refines g := by
  refine ⟨horder, hdirected, ⟨fun v hv => hnode v fun H hH => (hS H hH).lower_le.1 v hv, hedge⟩,
    fun v hv => ?_, fun a b hab => ?_⟩
  · obtain ⟨H, hH, hHv⟩ := hupper.1 v hv
    exact (hS H hH).le_upper.1 v hHv
  · obtain ⟨H, hH, hHab⟩ := hupper.2 a b hab
    exact (hS H hH).le_upper.2 a b hHab

end GraphVar

end GraphInterval
