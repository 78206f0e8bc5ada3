import GraphInterval.Proofs.OneTree.Decisions
import GraphInterval.Proofs.OneTree.Selection
import GraphInterval.Scalar.Double

/-!
# Pruning after a computation

A computation that succeeds leaves possible edges in the tree, and optional
ones outside of it.  The analysis excludes edges of the second kind and
enforces edges of the first, so no decision stands in the way of another, and
pruning succeeds with every budget.  This takes no more than that the graph
did not change in between: it holds for all costs, and with loops.
-/

namespace GraphInterval

namespace Kruskal

open OneTree

variable {α : Type} [Scalar α] {n : ℕ} {costs : Table α} {g : GraphVar} {k k₁ : Kruskal α}

/-- What is excluded is optional and not in the tree, and what is enforced is in the tree. -/
theorem analyse_prepared (hk : k.Spans n) (hplaced : k.Placed n g) (hg : g.Valid)
    (horder : g.order = n) (budget : α) :
    (analyse g (k.prepare g) budget).Within
      (fun e => g.isMandatory e.1 e.2 = false ∧ sym e ∉ k.tree.edgeSet)
      (fun e => sym e ∈ k.tree.edgeSet) := by
  obtain ⟨htree, hnonTree, hparent⟩ := hk.prepared g
  have hcontains : ∀ v, g.isPotential designated v = true →
      ((k.prepare g).tree.contains designated v = true ↔ s(designated, v) ∈ k.tree.edgeSet) := by
    intro v hv
    obtain ⟨hd, hlt⟩ := horder ▸ hg.lt_order hv
    rw [htree]
    exact hplaced.contains_iff designated hd v hlt
  have hpassed : ∀ e ∈ (k.prepare g).nonTreeEdges,
      g.isMandatory e.1 e.2 = false ∧ sym e ∉ k.tree.edgeSet := by
    intro e he
    rw [hnonTree] at he
    exact ⟨(mem_optionalPairs.mp (hplaced.passed e he).1).2, hplaced.notMem he⟩
  have hedge : ∀ v, 2 ≤ v → v < (k.prepare g).tree.order →
      s(v, (k.prepare g).parent v) ∈ k.tree.edgeSet := by
    intro v hlow hhigh
    rw [htree, hk.sized.tree.order_eq] at hhigh
    have hroot : root = 1 := rfl
    have hzero : designated = 0 := rfl
    exact hparent v (mem_innerNodes.mpr ⟨by omega, hhigh⟩) (by omega)
  have houtside : ∀ v, g.isPotential designated v = true →
      (k.prepare g).tree.contains designated v = false → s(designated, v) ∉ k.tree.edgeSet :=
    fun v hv hout hmem => Bool.false_ne_true (hout.symm.trans ((hcontains v hv).mpr hmem))
  exact analyse_within hg hpassed hedge
    (fun v hv hmandatory hout => ⟨hmandatory, houtside v hv hout⟩)
    (fun v hv hin => (hcontains v hv).mp hin) budget

/-- No decision fails, and every edge of the tree stays possible. -/
theorem prune_total (hk : k.Spans n) (hplaced : k.Placed n g) (hg : g.Valid) (horder : g.order = n)
    (hundirected : g.directed = false) (budget : α) :
    (prune budget).wp
      (fun pruned s => s.propagator.tree = k.tree ∧
        (∀ e ∈ k.tree.edges.toList, s.domains.isPotential e.1 e.2 = true) ∧
        g.Adds pruned.removed pruned.enforced s.domains)
      (fun _ _ => False) ⟨k, g⟩ := by
  have hanalysable := analysable_eq hk.two_le hg horder hk.sized.tree.order_eq
  obtain ⟨hremove, henforce⟩ := analyse_prepared hk hplaced hg horder budget
  have htree := (hk.prepared g).1
  apply prune_decides hanalysable
  generalize analyse g (k.prepare g) budget = s at *
  have hoptional : ∀ e ∈ s.toRemove.reverse, g.isMandatory e.1 e.2 = false := fun e he =>
    (hremove e (List.mem_reverse.mp he)).1
  apply Attempt.wp_mono (removeAll_wp hg hundirected _ hoptional) _ fun _ _ h => h
  intro removed g₁ h₁
  have hg₁ := h₁.narrows.valid hg
  have hundirected₁ := (h₁.narrows.directed hg).trans hundirected
  -- the excluded edges are none of the tree
  have hkept : ∀ e ∈ k.tree.edges.toList, g₁.isPotential e.1 e.2 = true := by
    intro e he
    have hmem : sym e ∈ k.tree.edgeSet := mem_edgeSet.mpr ⟨e, he, rfl⟩
    have hother : ∀ d ∈ s.toRemove.reverse, sym d ≠ sym e := fun d hd heq =>
      (hremove d (List.mem_reverse.mp hd)).2 (heq ▸ hmem)
    exact (h₁.isPotential_iff e.1 e.2).mpr ⟨hplaced.isPotential he, hother⟩
  have hpossible : ∀ e ∈ s.toEnforce.reverse, g₁.isPotential e.1 e.2 = true := by
    intro e he
    obtain ⟨f, hf, heq⟩ := mem_edgeSet.mp (henforce e (List.mem_reverse.mp he))
    rw [hg₁.isPotential_congr hundirected₁ heq]
    exact hkept f hf
  apply Attempt.wp_mono (enforceAll_wp hg₁ hundirected₁ _ hpossible) _ fun _ _ h => h
  intro enforced g₂ h₂
  have hkept₂ : ∀ e ∈ k.tree.edges.toList, g₂.isPotential e.1 e.2 = true := by
    intro e he
    rw [h₂.isPotential_eq]
    exact hkept e he
  have hadds := h₁.adds.trans h₂.adds
  rw [Nat.add_zero, Nat.zero_add] at hadds
  exact ⟨htree, hkept₂, hadds⟩

/-- After a computation that succeeded, pruning the same graph succeeds with every budget.  All
edges of the one-tree stay possible, and the answer counts the events about excluded and about
enforced edges. -/
theorem prune_succeeds (hk : Reached n k) (hg : g.Reachable) (horder : g.order = n)
    (hundirected : g.directed = false) (hcompute : compute costs g k = .ok () k₁) (budget : α) :
    ∃ pruned k₂ g', prune budget ⟨k₁, g⟩ = .ok pruned ⟨k₂, g'⟩ ∧ k₂.tree = k₁.tree ∧
      (∀ e ∈ k₁.tree.edges.toList, g'.isPotential e.1 e.2 = true) ∧
      ∃ news, g'.events = g.events ++ news ∧
        pruned.removed = news.countP (·.kind == .edgeRemoved) ∧
        pruned.enforced = news.countP (·.kind == .edgeEnforced) := by
  have hspans := Attempt.of_wp_ok (compute_spans hk.sized costs g) hcompute
  have hplaced := Attempt.of_wp_ok (compute_placed hk.sized costs hg.valid horder) hcompute
  obtain ⟨pruned, ⟨k₂, g'⟩, hprune, htree, hkept, news, hevents, hremoved, henforced⟩ :=
    Attempt.exists_ok (prune_total hspans hplaced hg.valid horder hundirected budget)
  exact ⟨pruned, k₂, g', hprune, htree, hkept, news, hevents, hremoved.symm, henforced.symm⟩

/-- The second cheapest edge of the designated node is a loop.  With a budget below the bound, every
optional edge is decided, and the loop is enforced. -/
theorem prune_succeeds_loop :
    let lower := (Graph.empty 4 false).addEdge 1 2
    let upper := ((Graph.complete 4 false).addEdge 0 0).removeEdge 2 3
    let g : GraphVar := { lower, upper, log := {} }
    let costs : Table Double := Table.ofFn 4 fun a b =>
      Scalar.ofInt (if a = b then 3 else 2 * (a + b))
    Reached 4 (make 4 : Kruskal Double) ∧ g.Reachable ∧ g.order = 4 ∧ g.directed = false ∧
      ∃ k₁ pruned k₂ g', compute costs g (make 4) = .ok () k₁ ∧
        prune (Scalar.ofInt 0) ⟨k₁, g⟩ = .ok pruned ⟨k₂, g'⟩ ∧
        pruned = { removed := 2, enforced := 3 } ∧ g'.isPotential 0 0 = true ∧
        ∃ news, g'.events = g.events ++ news ∧ news.countP (·.kind == .edgeRemoved) = 2 := by
  intro lower upper g costs
  have hk : Reached 4 (make 4 : Kruskal Double) := .make
  have hlower : Graph.Built 4 false lower := Graph.Built.empty.addEdge (by decide) (by decide)
  have hupper : Graph.Built 4 false upper :=
    ((Graph.Built.complete 4 false).addEdge (by decide) (by decide)).removeEdge
      (by decide) (by decide)
  have hnested : lower.order = upper.order ∧ lower.directed = upper.directed ∧
      lower.isSubgraphOf upper := by decide +kernel
  have hg : g.Reachable := .between hlower hupper (if_pos hnested)
  have horder : g.order = 4 := rfl
  have hdirected : g.directed = false := rfl
  have heval : (compute costs g).passes (fun _ k₁ => k₁.tree.edges.toList.contains (0, 0) &&
      (prune (Scalar.ofInt 0)).passes
        (fun pruned _ => pruned == { removed := 2, enforced := 3 }) ⟨k₁, g⟩) (make 4) = true := by
    decide +kernel
  obtain ⟨_, k₁, hcompute, htest⟩ := Attempt.passes_iff.mp heval
  simp only [Bool.and_eq_true, List.contains_iff_mem, Attempt.passes_iff, beq_iff_eq] at htest
  obtain ⟨hloop, _, _, hrun, rfl⟩ := htest
  obtain ⟨pruned, k₂, g', hprune, -, hkept, news, hevents, hremoved, -⟩ :=
    prune_succeeds hk hg horder hdirected hcompute (Scalar.ofInt 0)
  obtain ⟨rfl, -⟩ := EStateM.Result.ok.inj (hrun.symm.trans hprune)
  exact ⟨hk, hg, horder, hdirected, k₁, _, k₂, g', hcompute, hprune, rfl, hkept (0, 0) hloop, news,
    hevents, hremoved.symm⟩

end Kruskal

end GraphInterval
