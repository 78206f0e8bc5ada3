import GraphInterval.Proofs.GraphVar.Reachable

/-!
# Mutations as restrictions of the domain

A mutation asks a node or an edge to belong to the graph, or not to belong to
it.  It fails exactly if no graph of the domain complies, and then changes
nothing at all.  Otherwise it keeps the graphs that comply and no other, and
its answer tells whether that changes the domain.
-/

namespace GraphInterval

namespace GraphVar

variable {g g' s : GraphVar} {a b v : Nat}

/-- The graph has what a mutation enforces, and lacks what it removes. -/
def Mutation.Accepts : Mutation → Shape → Prop
  | .enforceNode v, H => H.node v
  | .removeNode v, H => ¬ H.node v
  | .enforceEdge a b, H => H.edge a b
  | .removeEdge a b, H => ¬ H.edge a b

/-- The graphs of the domain that the mutation accepts are left. -/
structure Restricts (g : GraphVar) (m : Mutation) (changed : Bool) (g' : GraphVar) : Prop where
  nonempty : ∃ H, g.Admits H ∧ m.Accepts H
  admits_iff : ∀ H, g'.Admits H ↔ g.Admits H ∧ m.Accepts H
  changed_iff : changed = true ↔ ∃ H, g.Admits H ∧ ¬ g'.Admits H

/-- A narrowing is a restriction if it loses no accepted graph, and answers
that it changed something if it loses a bound. -/
theorem Restricts.of_narrows {m : Mutation} {changed : Bool} (hg : g.Valid)
    (hnarrows : Narrows g g') (haccepts : ∀ H, g'.Admits H → m.Accepts H)
    (hkept : ∀ H, g.Admits H → m.Accepts H → g'.Admits H)
    (hchanged : changed = true → ∃ H, g.Admits H ∧ ¬ m.Accepts H)
    (hsame : changed = false → g' = g) : Restricts g m changed g' := by
  have hlower := (hnarrows.valid hg).admits_lower
  refine ⟨⟨_, hnarrows.admits hg hlower, haccepts _ hlower⟩,
    fun H => ⟨fun hH => ⟨hnarrows.admits hg hH, haccepts H hH⟩, fun hH => hkept H hH.1 hH.2⟩,
    fun h => ?_, fun ⟨H, hH, hlost⟩ => ?_⟩
  · obtain ⟨H, hH, hrejected⟩ := hchanged h
    exact ⟨H, hH, fun hH' => hrejected (haccepts H hH')⟩
  · by_contra h
    rw [Bool.not_eq_true] at h
    exact hlost (hsame h ▸ hH)

/-! ### Nodes -/

theorem enforceNode_restricts (hg : g.Valid) (v : Nat) :
    (enforceNode v).wp (fun changed g' => Restricts g (.enforceNode v) changed g')
      (fun failure g' => failure = .wipeout ∧ g' = g ∧ ∀ H, g.Admits H → ¬ H.node v) g := by
  rw [Attempt.wp, enforceNode_eq]
  cases hpotential : g.isPotentialNode v with
  | false =>
      refine ⟨rfl, rfl, fun H hH hv => ?_⟩
      exact absurd (hpotential.symm.trans (hH.le_upper.1 v hv)) (by simp)
  | true =>
      cases hmandatory : g.isMandatoryNode v with
      | true =>
          exact .of_narrows hg .refl (fun H hH => hH.lower_le.1 v hmandatory)
            (fun H hH _ => hH) (fun h => absurd h (by simp)) fun _ => rfl
      | false =>
          have hv : v < g.lower.order := hg.order_eq ▸ hg.upper.lt_of_hasNode hpotential
          have hnode := Graph.hasNode_addNode hg.lower hv
          refine .of_narrows hg (.single (.includeNode hpotential hmandatory))
            (fun H hH => hH.lower_le.1 v ((hnode v).mpr (.inl rfl))) (fun H hH hHv => ?_)
            (fun _ => ⟨_, hg.admits_lower, fun h => ?_⟩) fun h => absurd h (by simp)
          · refine ⟨hH.isGraph, ⟨fun x hx => ?_, hH.lower_le.2⟩, hH.le_upper⟩
            obtain rfl | hx := (hnode x).mp hx
            · exact hHv
            · exact hH.lower_le.1 x hx
          · exact absurd (hmandatory.symm.trans h) (by simp)

/-- Graphs without the node lose no edge when its edges are removed. -/
def Spares (g : GraphVar) (v : Nat) (s : GraphVar) : Prop :=
  s.Valid ∧ ∀ H, g.Admits H → ¬ H.node v → s.Admits H

theorem Spares.removeEdge (h : Spares g v s) (hv : v = a ∨ v = b) :
    (discard (GraphVar.removeEdge a b)).wp (fun _ s' => Spares g v s') (fun _ _ => True) s := by
  rw [Attempt.wp_discard]
  refine Attempt.wp_mono (removeEdge_wp h.1 a b) ?_ fun _ _ _ => trivial
  rintro _ s' ⟨hnarrows, -, -, hkept, -⟩
  refine ⟨hnarrows.valid h.1, fun H hH hHv => hkept H (h.2 H hH hHv) fun hab => hHv ?_⟩
  obtain rfl | rfl := hv
  · exact hH.isGraph.source hab
  · exact hH.isGraph.target hab

theorem removeIncidentEdges_spares (hg : g.Valid) (v : Nat) :
    (removeIncidentEdges v).wp (fun _ s => Spares g v s) (fun _ _ => True) g := by
  rw [removeIncidentEdges, Attempt.wp_bind, Attempt.wp_get, Attempt.wp_bind]
  refine Attempt.wp_mono (Attempt.wp_forM_keep (I := Spares g v)
    (fun _ _ _ hs => hs.removeEdge (.inl rfl)) ⟨hg, fun _ hH _ => hH⟩) ?_ fun _ _ h => h
  intro _ s hs
  rw [Attempt.wp_ite]
  refine ⟨fun _ => ?_, fun _ => hs⟩
  rw [Attempt.wp_bind, Attempt.wp_get]
  exact Attempt.wp_forM_keep (I := Spares g v) (fun _ _ _ hs => hs.removeEdge (.inr rfl)) hs

theorem removeNode_restricts (hg : g.Valid) (v : Nat) :
    (removeNode v).wp (fun changed g' => Restricts g (.removeNode v) changed g')
      (fun failure g' => failure = .wipeout ∧ g' = g ∧ ∀ H, g.Admits H → H.node v) g := by
  refine removeNode_wp_of hg v (removeIncidentEdges_spares hg v)
    (fun hmandatory => ⟨rfl, rfl, fun H hH => hH.lower_le.1 v hmandatory⟩) (fun hpotential => ?_)
    fun hpotential s hs hnarrows hupper => ?_
  · refine .of_narrows hg .refl (fun H hH hv => ?_) (fun H hH _ => hH)
      (fun h => absurd h (by simp)) fun _ => rfl
    exact absurd (hpotential.symm.trans (hH.le_upper.1 v hv)) (by simp)
  · obtain ⟨-, hspared⟩ := hs
    have hnode := Graph.hasNode_erase hupper v
    refine .of_narrows hg hnarrows (fun H hH hv => ((hnode v).mp (hH.le_upper.1 v hv)).1 rfl)
      (fun H hH hHv => ?_) (fun _ => ⟨_, hg.admits_upper, not_not.mpr hpotential⟩)
      fun h => absurd h (by simp)
    have hsH := hspared H hH hHv
    refine ⟨hsH.isGraph, hsH.lower_le, fun x hx => (hnode x).mpr ⟨?_, hsH.le_upper.1 x hx⟩,
      hsH.le_upper.2⟩
    rintro rfl
    exact hHv hx

/-! ### Edges -/

theorem enforceEdge_restricts (hg : g.Valid) (a b : Nat) :
    (enforceEdge a b).wp (fun changed g' => Restricts g (.enforceEdge a b) changed g')
      (fun failure g' => failure = .wipeout ∧ g' = g ∧ ∀ H, g.Admits H → ¬ H.edge a b) g := by
  refine Attempt.wp_mono (enforceEdge_wp hg a b) ?_ fun _ _ h => h
  rintro changed g' ⟨hnarrows, hmandatory, hkept, hchanged, hsame⟩
  refine .of_narrows hg hnarrows (fun H hH => hH.lower_le.2 a b hmandatory) hkept
    (fun h => ⟨_, hg.admits_lower, fun hab => ?_⟩) hsame
  exact absurd ((hchanged h).1.symm.trans hab) (by simp)

theorem removeEdge_restricts (hg : g.Valid) (a b : Nat) :
    (removeEdge a b).wp (fun changed g' => Restricts g (.removeEdge a b) changed g')
      (fun failure g' => failure = .wipeout ∧ g' = g ∧ ∀ H, g.Admits H → H.edge a b) g := by
  refine Attempt.wp_mono (removeEdge_wp hg a b) ?_ fun _ _ h => h
  rintro changed g' ⟨hnarrows, hpotential, -, hkept, hchanged, hsame⟩
  refine .of_narrows hg hnarrows (fun H hH hab => ?_) hkept
    (fun h => ⟨_, hg.admits_upper, not_not.mpr (hchanged h).1⟩) hsame
  exact absurd (hpotential.symm.trans (hH.le_upper.2 a b hab)) (by simp)

/-! ### All mutations -/

theorem Mutation.wp_restricts (hg : g.Valid) (m : Mutation) :
    m.run.wp (fun changed g' => Restricts g m changed g')
      (fun failure g' => failure = .wipeout ∧ g' = g ∧ ∀ H, g.Admits H → ¬ m.Accepts H) g := by
  have hdouble : ∀ {P : Shape → Prop}, (∀ H, g.Admits H → P H) → ∀ H, g.Admits H → ¬ ¬ P H :=
    fun h H hH => not_not.mpr (h H hH)
  cases m with
  | enforceNode v => exact enforceNode_restricts hg v
  | removeNode v =>
      exact Attempt.wp_mono (removeNode_restricts hg v) (fun _ _ h => h)
        fun _ _ h => ⟨h.1, h.2.1, hdouble h.2.2⟩
  | enforceEdge a b => exact enforceEdge_restricts hg a b
  | removeEdge a b =>
      exact Attempt.wp_mono (removeEdge_restricts hg a b) (fun _ _ h => h)
        fun _ _ h => ⟨h.1, h.2.1, hdouble h.2.2⟩

/-- A mutation of a reachable variable, whose bounds are nested, fails if and
only if it accepts no graph of the domain, and then leaves bounds and log as
they are; otherwise it keeps the accepted graphs, and answers whether it lost
any. -/
theorem Mutation.run_restricts (hg : g.Reachable) (m : Mutation) :
    g.lower.shape ≤ g.upper.shape ∧
      ((∃ failure g', m.run g = .error failure g') ↔ ∀ H, g.Admits H → ¬ m.Accepts H) ∧
      (∀ failure g', m.run g = .error failure g' → failure = .wipeout ∧ g' = g) ∧
      (∀ changed g', m.run g = .ok changed g' →
        (∀ H, g'.Admits H ↔ g.Admits H ∧ m.Accepts H) ∧
          (changed = true ↔ ∃ H, g.Admits H ∧ ¬ g'.Admits H)) := by
  have hwp := m.wp_restricts hg.valid
  refine ⟨hg.valid.le, ⟨?_, fun hnone => ?_⟩, fun failure g' hrun => ?_, fun changed g' hrun => ?_⟩
  · rintro ⟨failure, g', hrun⟩
    exact (Attempt.of_wp_error hwp hrun).2.2
  · cases hrun : m.run g with
    | error failure g' => exact ⟨failure, g', rfl⟩
    | ok changed g' =>
        obtain ⟨H, hH, haccepts⟩ := (Attempt.of_wp_ok hwp hrun).nonempty
        exact absurd haccepts (hnone H hH)
  · have hfailed := Attempt.of_wp_error hwp hrun
    exact ⟨hfailed.1, hfailed.2.1⟩
  · have hrestricts := Attempt.of_wp_ok hwp hrun
    exact ⟨hrestricts.admits_iff, hrestricts.changed_iff⟩

/-- Every graph with the edge between two nodes has its target, and a third node
can still be taken out. -/
theorem Mutation.run_restricts_edge :
    let g := (Mutation.enforceEdge 0 1).run.after (GraphVar.unconstrained 3 true)
    g.Reachable ∧ (∀ H, g.Admits H → H.node 1) ∧
      ∃ g', (Mutation.removeNode 2).run g = .ok true g' ∧
        (∀ H, g'.Admits H ↔ g.Admits H ∧ ¬ H.node 2) ∧ ∃ H, g.Admits H ∧ ¬ g'.Admits H := by
  intro g
  have hg : g.Reachable := .mutate _ (.unconstrained 3 true)
  have hfails : (match (Mutation.removeNode 1).run g with
      | .ok _ _ => false
      | .error _ _ => true) = true := by decide +kernel
  have hsucceeds : (match (Mutation.removeNode 2).run g with
      | .ok changed _ => changed
      | .error _ _ => false) = true := by decide +kernel
  clear_value g
  obtain ⟨-, hfails_iff, -, -⟩ := Mutation.run_restricts hg (.removeNode 1)
  obtain ⟨-, -, -, hok⟩ := Mutation.run_restricts hg (.removeNode 2)
  refine ⟨hg, fun H hH => ?_, ?_⟩
  · cases hrun : (Mutation.removeNode 1).run g with
    | ok changed g' => simp [hrun] at hfails
    | error failure g' => exact not_not.mp (hfails_iff.mp ⟨failure, g', hrun⟩ H hH)
  · cases hrun : (Mutation.removeNode 2).run g with
    | error failure g' => simp [hrun] at hsucceeds
    | ok changed g' =>
        rw [hrun] at hsucceeds
        obtain rfl : changed = true := hsucceeds
        exact ⟨g', rfl, (hok true g' hrun).1, (hok true g' hrun).2.mp rfl⟩

end GraphVar

end GraphInterval
