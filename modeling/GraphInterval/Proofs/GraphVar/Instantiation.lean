import GraphInterval.Proofs.GraphVar.Reachable

/-!
# Variables with a single graph

Whether a single graph is left is judged by counts alone: the number of nodes of
both bounds, and the number of neighbours of every possible node.  As the lower
bound is a subgraph of the upper one in every reachable state, equal counts
leave no room for a difference, so the test succeeds exactly when the bounds are
the same graph, which is then the only one of the domain.
-/

namespace GraphInterval

namespace GraphVar

variable {g : GraphVar} {H : Shape}

/-- The counts that are compared tell whether the bounds are the same graph. -/
theorem isInstantiated_iff (hg : g.Valid) :
    g.isInstantiated = true ↔ g.lower.shape = g.upper.shape := by
  simp only [isInstantiated, Bool.and_eq_true, beq_iff_eq, List.all_eq_true,
    Graph.mem_nodes hg.upper]
  constructor
  · rintro ⟨hnodes, hneighbours⟩
    refine Shape.le_antisymm hg.le ⟨fun v hv => ?_, fun a b hab => ?_⟩
    · exact SparseSet.contains_of_size_le hg.lower.nodes hg.upper.nodes hg.le.1 hnodes.ge hv
    · exact SparseSet.contains_of_size_le (hg.lower.successors a) (hg.upper.successors a)
        (hg.le.2 a) (hneighbours a (hg.upper.source hab)).ge hab
  · intro hsame
    have hback : g.upper.shape ≤ g.lower.shape := hsame ▸ Shape.le_refl _
    refine ⟨Nat.le_antisymm ?_ ?_, fun a _ => Nat.le_antisymm ?_ ?_⟩
    · exact SparseSet.size_le_size hg.lower.nodes hg.upper.nodes hg.le.1
    · exact SparseSet.size_le_size hg.upper.nodes hg.lower.nodes hback.1
    · exact SparseSet.size_le_size (hg.lower.successors a) (hg.upper.successors a) (hg.le.2 a)
    · exact SparseSet.size_le_size (hg.upper.successors a) (hg.lower.successors a) (hback.2 a)

theorem upper_le_lower_of_isInstantiated (hg : g.Valid) (hsingle : g.isInstantiated = true) :
    g.upper.shape ≤ g.lower.shape := by
  rw [isInstantiated_iff hg] at hsingle
  exact hsingle ▸ Shape.le_refl _

/-- An instantiated variable has its upper bound as its only graph. -/
theorem Admits.eq_upper (hg : g.Valid) (hH : g.Admits H) (hsingle : g.isInstantiated = true) :
    H = g.upper.shape :=
  Shape.le_antisymm hH.le_upper
    (Shape.le_trans (upper_le_lower_of_isInstantiated hg hsingle) hH.lower_le)

theorem isMandatory_of_isInstantiated (hg : g.Valid) (hsingle : g.isInstantiated = true)
    {a b : Nat} (hab : g.isPotential a b = true) : g.isMandatory a b = true :=
  (upper_le_lower_of_isInstantiated hg hsingle).2 a b hab

theorem isMandatoryNode_of_isInstantiated (hg : g.Valid) (hsingle : g.isInstantiated = true)
    {v : Nat} (hv : g.isPotentialNode v = true) : g.isMandatoryNode v = true :=
  (upper_le_lower_of_isInstantiated hg hsingle).1 v hv

/-- Equal bounds leave one graph, and different bounds are two graphs of the domain. -/
theorem existsUnique_admits_iff (hg : g.Valid) :
    (∃! H, g.Admits H) ↔ g.lower.shape = g.upper.shape := by
  constructor
  · rintro ⟨H, -, honly⟩
    exact (honly _ hg.admits_lower).trans (honly _ hg.admits_upper).symm
  · intro hsame
    have hsingle := (isInstantiated_iff hg).mpr hsame
    exact ⟨g.upper.shape, hg.admits_upper, fun H hH => hH.eq_upper hg hsingle⟩

/-- In every reachable state the test by counts succeeds if and only if the bounds have the same
nodes and the same edges, which means that they are equal, and that the domain has exactly one
graph. -/
theorem isInstantiated_exact (hg : g.Reachable) :
    (g.isInstantiated = true ↔ (∀ v, g.isMandatoryNode v = g.isPotentialNode v) ∧
      ∀ a b, g.isMandatory a b = g.isPotential a b) ∧
      (g.isInstantiated = true ↔ (g.lower == g.upper) = true) ∧
      (g.isInstantiated = true ↔ ∃! H, g.Admits H) := by
  have hvalid := hg.valid
  rw [isInstantiated_iff hvalid]
  refine ⟨?_, ?_, (existsUnique_admits_iff hvalid).symm⟩
  · rw [Shape.ext_iff']
    exact and_congr (forall_congr' fun v => Bool.eq_iff_iff.symm)
      (forall₂_congr fun a b => Bool.eq_iff_iff.symm)
  · rw [Graph.beq_iff hvalid.lower hvalid.upper]
    simp only [hvalid.directed_eq, hvalid.order_eq, true_and]

/-- Arcs and a loop, after a return to a checkpoint.  While a node may still be left out there are
two graphs; without it the loop is the only edge of the only graph. -/
theorem isInstantiated_exact_returned :
    let upper := ((Graph.empty 3 true).addEdge 0 0 |>.addEdge 0 1).addEdge 1 2
    let s : GraphVar := { lower := Graph.empty 3 true, upper, log := {} }
    let tried := (Mutation.removeEdge 0 0).run.after
      ((Mutation.enforceEdge 0 1).run.after s.mark)
    let returned := (GraphVar.synchronise 0).after tried
    let narrowed := (Mutation.removeNode 1).run.after
      ((Mutation.enforceEdge 0 0).run.after returned)
    let settled := (Mutation.removeNode 2).run.after narrowed
    narrowed.Reachable ∧ narrowed.isInstantiated = false ∧ ¬ (∃! H, narrowed.Admits H) ∧
      settled.Reachable ∧ settled.isInstantiated = true ∧ settled.isPotential 0 0 = true ∧
      ∃! H, settled.Admits H := by
  intro upper s tried returned narrowed settled
  have hupper : Graph.Built 3 true upper :=
    .addEdge (.addEdge (.addEdge .empty (by decide) (by decide)) (by decide) (by decide))
      (by decide) (by decide)
  have hs : s.Reachable := .of_nested .empty hupper (by decide +kernel)
  have htried : tried.Reachable := .mutate _ (.mutate _ (.mark hs))
  have hlt : 0 < tried.checkpoint := by decide +kernel
  have hnarrowed : narrowed.Reachable := .mutate _ (.mutate _ (htried.goBack hlt))
  have hsettled : settled.Reachable := .mutate _ hnarrowed
  have htwo : narrowed.isInstantiated = false := by decide +kernel
  have hone : settled.isInstantiated = true := by decide +kernel
  have hloop : settled.isPotential 0 0 = true := by decide +kernel
  refine ⟨hnarrowed, htwo, fun h => ?_, hsettled, hone, hloop, ?_⟩
  · exact absurd (htwo.symm.trans ((isInstantiated_exact hnarrowed).2.2.mpr h)) Bool.false_ne_true
  · exact (isInstantiated_exact hsettled).2.2.mp hone

end GraphVar

end GraphInterval
