import GraphInterval.Proofs.OneTree.Conflict
import GraphInterval.Proofs.Tour.Cycle

/-!
# The Held-Karp bound

Both finders bound the cost of every tour, whatever penalties the costs were
charged with.  A tour is one of the one-trees that a finder minimises over, so
its penalised cost is at least the bound; and its penalised cost exceeds its
cost by twice the sum of the penalties, because it meets every node twice.
The penalties may have either sign, and the graph may be decided in part.
-/

namespace GraphInterval

open OneTree

variable {n : ℕ} {cost : Sym2 ℕ → ℚ} {π : ℕ → ℚ} {M U : Set (Sym2 ℕ)} {H T : Finset (Sym2 ℕ)}

/-- A tour between two sets of edges is a one-tree between them. -/
theorem Candidate.oneTree_of_tour (hn : 3 ≤ n) (hH : Candidate (IsTour n) M U H) :
    Candidate (IsOneTree n) M U H :=
  ⟨hH.base.isOneTree hn, hH.mandatory, hH.possible⟩

/-- Without the penalties, a cheapest one-tree costs no more than a tour. -/
theorem IsCheapest.sub_penalties_le (hn : 3 ≤ n)
    (hT : IsCheapest (IsOneTree n) M U (penalised cost π) T) (hH : Candidate (IsTour n) M U H) :
    totalCost (penalised cost π) T - 2 * ((List.range n).map π).sum ≤ totalCost cost H := by
  rw [sub_le_iff_le_add]
  calc totalCost (penalised cost π) T
      ≤ totalCost (penalised cost π) H := hT.le H (hH.oneTree_of_tour hn)
    _ = totalCost cost H + 2 * ((List.range n).map π).sum :=
        hH.base.totalCost_penalised hn cost π

/-- With any penalties, the bound of either finder less twice their sum is at most the cost of
every Hamiltonian cycle of possible edges that has all mandatory ones, and both finders succeed if
there is such a cycle. -/
theorem heldKarp_bound {k : Kruskal Exact} {p : Prim Exact} {costs : Table Exact} {g : GraphVar}
    (hn : 3 ≤ n) (hk : Kruskal.Reached n k) (hp : Prim.Reached n p)
    (hcosts : costs.Charges n (penalised cost π)) (hg : g.Reachable) (horder : g.order = n)
    (hundirected : g.directed = false) (hloopless : ∀ v, g.isPotential v v = false) :
    (∀ k', Kruskal.compute costs g k = .ok () k' → ∃ bound, k'.bound = .number bound ∧
        ∀ H, Candidate (IsTour n) g.mandatoryEdges g.possibleEdges H →
          bound - 2 * ((List.range n).map π).sum ≤ totalCost cost H) ∧
      (∀ p', Prim.compute costs g p = .ok () p' → ∃ bound, p'.bound = .number bound ∧
        ∀ H, Candidate (IsTour n) g.mandatoryEdges g.possibleEdges H →
          bound - 2 * ((List.range n).map π).sum ≤ totalCost cost H) ∧
      ∀ H, Candidate (IsTour n) g.mandatoryEdges g.possibleEdges H →
        (∃ k', Kruskal.compute costs g k = .ok () k') ∧
          ∃ p', Prim.compute costs g p = .ok () p' := by
  have hsimple : g.IsSimple n := ⟨hg.valid, horder, hundirected, hloopless⟩
  have hkruskal := Kruskal.compute_wp (by omega) hk.sized hcosts hsimple
  have hprim := Prim.compute_wp (by omega) hp.sized hcosts hsimple
  constructor
  · intro k' hrun
    have hcomputed := Attempt.of_wp_ok hkruskal hrun
    exact ⟨_, hcomputed.represents.cost_eq, fun H hH => hcomputed.cheapest.sub_penalties_le hn hH⟩
  constructor
  · intro p' hrun
    obtain ⟨hrepresents, hcheapest⟩ := Attempt.of_wp_ok hprim hrun
    exact ⟨_, hrepresents.cost_eq, fun H hH =>
      (hcheapest H (hH.oneTree_of_tour hn)).sub_penalties_le hn hH⟩
  · intro H hH
    have hcandidate := hH.oneTree_of_tour hn
    constructor
    · obtain ⟨_, k', hrun, -⟩ := Attempt.exists_ok
        (Attempt.wp_mono hkruskal (fun _ _ h => h) fun _ _ h => h.2 H hcandidate)
      exact ⟨k', hrun⟩
    · obtain ⟨_, p', hrun, -⟩ := Attempt.exists_ok
        (Attempt.wp_mono hprim (fun _ _ h => h) fun _ _ h => h.2 H hcandidate)
      exact ⟨p', hrun⟩

/-- Four nodes with one mandatory edge and penalties of both signs.  Both finders bound the cost
of the tour around them, which is twelve, after three is taken off. -/
theorem heldKarp_bound_square :
    let g := completeFour [(1, 2)]
    let cost : Sym2 ℕ → ℚ := Sym2.lift ⟨fun a b => a + b, fun _ _ => add_comm _ _⟩
    let π : ℕ → ℚ := fun v => if v = 1 then 3 else -1 / 2
    let costs := Table.ofFn 4 fun a b => Exact.number (penalised cost π s(a, b))
    let H : Finset (Sym2 ℕ) := {s(0, 1), s(1, 2), s(2, 3), s(3, 0)}
    Kruskal.Reached 4 (Kruskal.make 4 : Kruskal Exact) ∧
      Prim.Reached 4 (Prim.make 4 : Prim Exact) ∧ costs.Charges 4 (penalised cost π) ∧
      g.Reachable ∧ g.order = 4 ∧ g.directed = false ∧ (∀ v, g.isPotential v v = false) ∧
      Candidate (IsTour 4) g.mandatoryEdges g.possibleEdges H ∧
      (∃ k' q, Kruskal.compute costs g (Kruskal.make 4) = .ok () k' ∧ k'.bound = .number q ∧
        q ≤ 15) ∧
      ∃ p' q, Prim.compute costs g (Prim.make 4) = .ok () p' ∧ p'.bound = .number q ∧ q ≤ 15 := by
  intro g cost π costs H
  have hk : Kruskal.Reached 4 (Kruskal.make 4 : Kruskal Exact) := .make
  have hp : Prim.Reached 4 (Prim.make 4 : Prim Exact) := .make
  have hcosts : costs.Charges 4 (penalised cost π) :=
    ⟨Table.square_ofFn _ _, fun a ha b hb => Table.entry_ofFn _ ha hb⟩
  have hg : g.Reachable := reachable_completeFour _
  have horder : g.order = 4 := rfl
  have hdirected : g.directed = false := rfl
  have hpotential : ∀ a < 4, ∀ b < 4, g.isPotential a b = !decide (a = b) := by decide +kernel
  have hmandatory : ∀ a < 4, ∀ b < 4, g.isMandatory a b = true → s(a, b) = s(1, 2) := by
    decide +kernel
  clear_value g
  have hsimple := Kruskal.isSimple_of_complete hg horder hdirected hpotential
  have hcandidate : Candidate (IsTour 4) g.mandatoryEdges g.possibleEdges H := by
    refine ⟨⟨[0, 1, 2, 3], .refl _, rfl⟩, ?_, ?_⟩
    · rintro e ⟨a, b, rfl, hab⟩
      obtain ⟨ha, hb⟩ := hsimple.lt_of_isPotential (hg.valid.isPotential hab)
      rw [hmandatory a ha b hb hab]
      decide
    · simp only [H, Finset.forall_mem_insert, Finset.mem_singleton, forall_eq,
        hsimple.mem_possibleEdges]
      exact ⟨hpotential 0 (by decide) 1 (by decide), hpotential 1 (by decide) 2 (by decide),
        hpotential 2 (by decide) 3 (by decide), hpotential 3 (by decide) 0 (by decide)⟩
  have hsum : totalCost cost H = 12 ∧ 2 * ((List.range 4).map π).sum = 3 := by decide +kernel
  obtain ⟨hthorough, hfast, hruns⟩ :=
    heldKarp_bound (by decide) hk hp hcosts hg horder hdirected hsimple.loopless
  obtain ⟨⟨k', hrun⟩, p', hrun'⟩ := hruns H hcandidate
  obtain ⟨q, hq, hle⟩ := hthorough k' hrun
  obtain ⟨q', hq', hle'⟩ := hfast p' hrun'
  have hbound := hle H hcandidate
  have hbound' := hle' H hcandidate
  rw [hsum.1, hsum.2] at hbound hbound'
  exact ⟨hk, hp, hcosts, hg, horder, hdirected, hsimple.loopless, hcandidate,
    ⟨k', q, hrun, hq, by linarith⟩, p', q', hrun', hq', by linarith⟩

end GraphInterval
