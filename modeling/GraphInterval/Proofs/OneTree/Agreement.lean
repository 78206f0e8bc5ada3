import GraphInterval.Proofs.OneTree.Minimum
import GraphInterval.Proofs.OneTree.Prim

/-!
# The finders agree on the bound

The two finders select edges in different orders and may end with different
one-trees.  Over exact numbers both are cheapest ones, so that they cost the
same: the fast finder can stand in for the thorough one where only the bound
is needed.
-/

namespace GraphInterval

namespace Prim

open OneTree

variable {n : ℕ} {cost : Sym2 ℕ → ℚ} {costs : Table Exact} {g : GraphVar} {p : Prim Exact}
variable {k : Kruskal Exact}

/-- If some one-tree of possible edges has all mandatory ones, the fast finder succeeds with a
cheapest one of these, and its bound is the one of the thorough finder. -/
theorem compute_cheapest (hn : 3 ≤ n) (hp : Reached n p) (hk : Kruskal.Reached n k)
    (hcosts : costs.Charges n cost) (hg : g.Reachable) (horder : g.order = n)
    (hundirected : g.directed = false) (hloopless : ∀ v, g.isPotential v v = false)
    (hsome : ∃ H, Candidate (IsOneTree n) g.mandatoryEdges g.possibleEdges H) :
    ∃ p' k', compute costs g p = .ok () p' ∧ Kruskal.compute costs g k = .ok () k' ∧
      p'.tree.Represents n cost ∧
      IsCheapest (IsOneTree n) g.mandatoryEdges g.possibleEdges cost p'.tree.edgeSet ∧
      p'.bound = .number (totalCost cost p'.tree.edgeSet) ∧ p'.bound = k'.bound := by
  have hsimple : g.IsSimple n := ⟨hg.valid, horder, hundirected, hloopless⟩
  obtain ⟨H, hH⟩ := hsome
  have hprim := compute_wp (by omega) hp.sized hcosts hsimple
  have hkruskal := Kruskal.compute_wp (by omega) hk.sized hcosts hsimple
  cases hrun : compute costs g p with
  | error failure p' => exact absurd hH ((Attempt.of_wp_error hprim hrun).2 H)
  | ok value p' =>
  cases hrun' : Kruskal.compute costs g k with
  | error failure k' => exact absurd hH ((Attempt.of_wp_error hkruskal hrun').2 H)
  | ok value k' =>
      have hcomputed := Attempt.of_wp_ok hkruskal hrun'
      obtain ⟨hrepresents, hall⟩ := Attempt.of_wp_ok hprim hrun
      have hcheapest := hall H hH
      have hbound : p'.bound = k'.bound := calc
        p'.bound = .number (totalCost cost p'.tree.edgeSet) := hrepresents.cost_eq
        _ = .number (totalCost cost k'.tree.edgeSet) :=
          congrArg _ (hcheapest.totalCost_eq hcomputed.cheapest)
        _ = k'.bound := hcomputed.represents.cost_eq.symm
      exact ⟨p', k', rfl, rfl, hrepresents, hcheapest, hrepresents.cost_eq, hbound⟩

/-- Four nodes with two mandatory edges, which tie in the heap of the fast finder. -/
theorem compute_cheapest_kite :
    let g := (GraphVar.Mutation.enforceEdge 2 3).run.after
      ((GraphVar.Mutation.enforceEdge 1 2).run.after (GraphVar.unconstrained 4 false))
    let costs := Table.ofFn 4 fun a b => Exact.number (a + b)
    let cost : Sym2 ℕ → ℚ := Sym2.lift ⟨fun a b => a + b, fun _ _ => add_comm _ _⟩
    Reached 4 (make 4 : Prim Exact) ∧ Kruskal.Reached 4 (Kruskal.make 4 : Kruskal Exact) ∧
      costs.Charges 4 cost ∧ g.Reachable ∧ g.order = 4 ∧ g.directed = false ∧
      (∀ v, g.isPotential v v = false) ∧
      (∃ H, Candidate (IsOneTree 4) g.mandatoryEdges g.possibleEdges H) ∧
      ∃ p' k' q, compute costs g (make 4) = .ok () p' ∧
        Kruskal.compute costs g (Kruskal.make 4) = .ok () k' ∧ s(1, 2) ∈ p'.tree.edgeSet ∧
        s(2, 3) ∈ p'.tree.edgeSet ∧ p'.bound = k'.bound ∧ k'.bound = .number q ∧ q ≤ 11 := by
  intro g costs cost
  have hp : Reached 4 (make 4 : Prim Exact) := .make
  have hk : Kruskal.Reached 4 (Kruskal.make 4 : Kruskal Exact) := .make
  have hcosts : costs.Charges 4 cost :=
    ⟨Table.square_ofFn _ _, fun a ha b hb => Table.entry_ofFn _ ha hb⟩
  have hg : g.Reachable := .mutate _ (.mutate _ (.unconstrained 4 false))
  have horder : g.order = 4 := rfl
  have hdirected : g.directed = false := rfl
  have hpotential : ∀ a < 4, ∀ b < 4, g.isPotential a b = !decide (a = b) := by decide +kernel
  have hmandatory : ∀ a < 4, ∀ b < 4, g.isMandatory a b = true →
      s(a, b) ∈ ({s(0, 1), s(0, 2), s(1, 2), s(2, 3)} : Finset (Sym2 ℕ)) := by decide +kernel
  have hlower : g.isMandatory 1 2 = true := by decide +kernel
  have hupper : g.isMandatory 2 3 = true := by decide +kernel
  clear_value g
  have hsimple := Kruskal.isSimple_of_complete hg horder hdirected hpotential
  have hcandidate : Candidate (IsOneTree 4) g.mandatoryEdges g.possibleEdges
      {s(0, 1), s(0, 2), s(1, 2), s(2, 3)} := by
    apply Kruskal.candidate_kite hsimple hpotential
    rintro e ⟨a, b, rfl, hab⟩
    obtain ⟨ha, hb⟩ := hsimple.lt_of_isPotential (hg.valid.isPotential hab)
    exact hmandatory a ha b hb hab
  obtain ⟨p', k', hrun, hrun', -, hcheapest, hcost, hbound⟩ := compute_cheapest (by decide) hp hk
    hcosts hg horder hdirected hsimple.loopless ⟨_, hcandidate⟩
  have hmem := fun e he => hcheapest.candidate.mandatory e he
  refine ⟨hp, hk, hcosts, hg, horder, hdirected, hsimple.loopless, ⟨_, hcandidate⟩, p', k', _, hrun,
    hrun', hmem _ (hsimple.mem_mandatoryEdges.mpr hlower),
    hmem _ (hsimple.mem_mandatoryEdges.mpr hupper), hbound, hbound.symm.trans hcost, ?_⟩
  refine (hcheapest.le _ hcandidate).trans ?_
  decide +kernel

end Prim

end GraphInterval
