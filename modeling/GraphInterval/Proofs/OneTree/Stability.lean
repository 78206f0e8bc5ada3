import GraphInterval.Proofs.OneTree.Sensitivity
import GraphInterval.Proofs.OneTree.Minimum

/-!
# Pruning twice

After pruning, every edge that is still optional is in some one-tree within the
budget and missing in another: one of them is the cheapest one-tree, which
pruning never hurts, and the other is the one because of which the edge was
not decided.  Both are still there for a second computation.  Whatever
cheapest one-tree it finds, no change of an optional edge is too expensive
then, so a second pruning decides nothing.
-/

namespace GraphInterval

variable {n : ℕ} {cost : Sym2 ℕ → ℚ} {g g' : GraphVar} {budget : Exact}

/-- A candidate of a narrower graph is one of the graph. -/
theorem GraphVar.Narrows.candidate (h : g.Narrows g') (hg : g.Valid)
    {B : Finset (Sym2 ℕ) → Prop} {S : Finset (Sym2 ℕ)}
    (hS : Candidate B g'.mandatoryEdges g'.possibleEdges S) :
    Candidate B g.mandatoryEdges g.possibleEdges S := by
  have hmandatory : g.mandatoryEdges ⊆ g'.mandatoryEdges := by
    rintro e ⟨a, b, rfl, hab⟩
    exact ⟨a, b, rfl, h.isMandatory hg hab⟩
  have hpossible : g'.possibleEdges ⊆ g.possibleEdges := by
    rintro e ⟨a, b, rfl, hab⟩
    exact ⟨a, b, rfl, h.isPotential hg hab⟩
  exact ⟨hS.base, fun e he => hS.mandatory e (hmandatory he),
    fun e he => hpossible (hS.possible e he)⟩

namespace Kruskal

open OneTree

variable {k k₀ k' : Kruskal Exact}

/-! ### What pruning leaves -/

/-- Pruning never hurts the tree, so it is still a cheapest one. -/
theorem Tightened.isCheapest (h : Tightened n cost g k budget k' g') (hg : g.IsSimple n)
    (hT : IsCheapest (IsOneTree n) g.mandatoryEdges g.possibleEdges cost k.tree.edgeSet) :
    IsCheapest (IsOneTree n) g'.mandatoryEdges g'.possibleEdges cost k.tree.edgeSet := by
  have hmandatory : ∀ e ∈ g'.mandatoryEdges, e ∈ k.tree.edgeSet := by
    rintro e ⟨a, b, rfl, hab⟩
    obtain hM | ⟨-, hmem, -⟩ := (h.isMandatory_iff a b).mp hab
    · exact hT.candidate.mandatory _ (hg.mem_mandatoryEdges.mpr hM)
    · exact hmem
  have hpossible : ∀ e ∈ k.tree.edgeSet, e ∈ g'.possibleEdges := by
    intro e he
    obtain ⟨a, b, rfl, hpotential⟩ := hT.candidate.possible e he
    have hkept := (h.isPotential_iff a b).mpr ⟨hpotential, fun hdecided => hdecided.2.1 he⟩
    exact ⟨a, b, rfl, hkept⟩
  exact ⟨⟨hT.candidate.base, hmandatory, hpossible⟩,
    fun S hS => hT.le S (h.narrows.candidate hg.valid hS)⟩

/-- Every optional edge is in some one-tree within the budget, and missing in another. -/
def IsSettled (n : ℕ) (cost : Sym2 ℕ → ℚ) (g : GraphVar) (budget : Exact) : Prop :=
  ∀ a b, g.isPotential a b = true → g.isMandatory a b = false →
    (∃ S, IsAffordable n cost g budget S ∧ s(a, b) ∈ S) ∧
      ∃ S, IsAffordable n cost g budget S ∧ s(a, b) ∉ S

/-- An edge that is still optional was not decided. -/
theorem Tightened.undecided (h : Tightened n cost g k budget k' g') (hg : g.IsSimple n) {a b : ℕ}
    (hpotential : g'.isPotential a b = true) (hmandatory : g'.isMandatory a b = false) :
    (g.isPotential a b = true ∧ g.isMandatory a b = false) ∧
      exceeds k.bound (k'.marginals.entry a b .top) budget = false := by
  have hpotential₀ := h.narrows.isPotential hg.valid hpotential
  have hmandatory₀ : g.isMandatory a b = false := by
    rw [Bool.eq_false_iff] at hmandatory ⊢
    exact fun htrue => hmandatory (h.narrows.isMandatory hg.valid htrue)
  have hkept : exceeds k.bound (k'.marginals.entry a b .top) budget = false := by
    rw [Bool.eq_false_iff]
    intro hexceeds
    by_cases hT : s(a, b) ∈ k.tree.edgeSet
    · have htrue := (h.isMandatory_iff a b).mpr (.inr ⟨⟨hpotential₀, hmandatory₀⟩, hT, hexceeds⟩)
      exact absurd (hmandatory.symm.trans htrue) Bool.false_ne_true
    · exact ((h.isPotential_iff a b).mp hpotential).2 ⟨⟨hpotential₀, hmandatory₀⟩, hT, hexceeds⟩
  exact ⟨⟨hpotential₀, hmandatory₀⟩, hkept⟩

/-- The tree and the one-tree because of which an edge was not decided differ about it. -/
theorem Tightened.settled (h : Tightened n cost g k budget k' g') (hg : g.IsSimple n)
    (hcomputed : Computed n cost g k) : IsSettled n cost g' budget := by
  have hbound : k.bound = .number (totalCost cost k.tree.edgeSet) := hcomputed.represents.cost_eq
  intro a b hpotential hmandatory
  obtain ⟨⟨hpotential₀, hmandatory₀⟩, hkept⟩ := h.undecided hg hpotential hmandatory
  obtain ⟨S, hS, hdiffer⟩ := (h.exceeds_eq_false hbound hpotential₀ hmandatory₀).mp hkept
  -- the tree costs no more than the one-tree that differs from it
  have hTS := Exact.number_le_number.mpr (hcomputed.cheapest.le S hS.candidate)
  have hT : IsAffordable n cost g' budget k.tree.edgeSet :=
    ⟨(h.isCheapest hg hcomputed.cheapest).candidate, Exact.le_trans hTS hS.le⟩
  have hS' := h.affordable hg hbound hS
  by_cases hin : s(a, b) ∈ k.tree.edgeSet
  · exact ⟨⟨_, hT, hin⟩, S, hS', fun hmem => hdiffer.mp hmem hin⟩
  · exact ⟨⟨S, hS', hdiffer.mpr hin⟩, _, hT, hin⟩

/-! ### Nothing to decide -/

theorem IsSettled.analyse_eq (h : IsSettled n cost g budget) (hg : g.IsSimple n)
    (hprepared : Prepared n cost g k₀ k) :
    (analyse g k budget).toRemove = [] ∧ (analyse g k budget).toEnforce = [] := by
  have hanalysed := analyse_spec hg hprepared budget
  have hbound : k.bound = .number (totalCost cost k.tree.edgeSet) :=
    hprepared.computed.represents.cost_eq
  generalize analyse g k budget = s at *
  have hkept : ∀ a b, g.isPotential a b = true ∧ g.isMandatory a b = false →
      exceeds k.bound (s.marginals.entry a b .top) budget = false := by
    rintro a b ⟨hpotential, hmandatory⟩
    obtain ⟨⟨S, hS, hin⟩, R, hR, hout⟩ := h a b hpotential hmandatory
    have hcost := hanalysed.cost a b hpotential hmandatory
    rw [hbound] at hcost ⊢
    rw [exceeds_eq_false_iff hcost]
    by_cases hT : s(a, b) ∈ k.tree.edgeSet
    · exact ⟨R, hR, iff_of_false hout (not_not.mpr hT)⟩
    · exact ⟨S, hS, iff_of_true hin hT⟩
  constructor
  · rw [List.eq_nil_iff_forall_not_mem]
    intro e he
    obtain ⟨hoptional, -, hexceeds⟩ := (hanalysed.toRemove e.1 e.2).mp ⟨e, he, rfl⟩
    exact absurd ((hkept _ _ hoptional).symm.trans hexceeds) Bool.false_ne_true
  · rw [List.eq_nil_iff_forall_not_mem]
    intro e he
    obtain ⟨hoptional, -, hexceeds⟩ := (hanalysed.toEnforce e.1 e.2).mp ⟨e, he, rfl⟩
    exact absurd ((hkept _ _ hoptional).symm.trans hexceeds) Bool.false_ne_true

/-- Pruning changes nothing in a settled graph, whichever cheapest one-tree was computed. -/
theorem IsSettled.prune_eq (h : IsSettled n cost g budget) (hn : 2 ≤ n) (hg : g.IsSimple n)
    (hcomputed : Computed n cost g k) :
    ∃ k', prune budget ⟨k, g⟩ = .ok { removed := 0, enforced := 0 } ⟨k', g⟩ := by
  obtain ⟨hremove, henforce⟩ := h.analyse_eq hg (prepare_spec hn hg hcomputed)
  have hanalysable := analysable_eq hn hg.valid hg.order_eq hcomputed.represents.sized.order_eq
  have hwp : (prune budget).wp
      (fun pruned s => pruned = { removed := 0, enforced := 0 } ∧ s.domains = g)
      (fun _ _ => False) ⟨k, g⟩ := by
    apply prune_decides hanalysable
    rw [hremove, henforce]
    exact ⟨rfl, rfl⟩
  obtain ⟨_, ⟨k', _⟩, hprune, rfl, rfl⟩ := Attempt.exists_ok hwp
  exact ⟨k', hprune⟩

/-! ### A second time -/

/-- Computing on the pruned graph succeeds and finds a one-tree of the same cost. -/
theorem Tightened.compute_again {costs : Table Exact} {l : Kruskal Exact}
    (h : Tightened n cost g k budget k' g') (hn : 2 ≤ n) (hg : g.IsSimple n)
    (hcosts : costs.Charges n cost) (hcomputed : Computed n cost g k) (hl : l.Sized n) :
    ∃ l₁, compute costs g' l = .ok () l₁ ∧ Computed n cost g' l₁ ∧ l₁.bound = k.bound := by
  have hcheapest := h.isCheapest hg hcomputed.cheapest
  have hwp := compute_wp hn hl hcosts (hg.narrows h.narrows)
  cases hrun : compute costs g' l with
  | error failure l₁ =>
      exact absurd hcheapest.candidate ((Attempt.of_wp_error hwp hrun).2 _)
  | ok value l₁ =>
      have hcomputed' := Attempt.of_wp_ok hwp hrun
      have hbound : l₁.bound = k.bound := calc
        l₁.bound = .number (totalCost cost l₁.tree.edgeSet) := hcomputed'.represents.cost_eq
        _ = .number (totalCost cost k.tree.edgeSet) :=
          congrArg _ (hcomputed'.cheapest.totalCost_eq hcheapest)
        _ = k.bound := hcomputed.represents.cost_eq.symm
      exact ⟨l₁, rfl, hcomputed', hbound⟩

/-- After a computation and pruning, computing on the pruned graph finds a one-tree of the same
cost, and pruning with the same budget changes nothing, whatever the finder computed before. -/
theorem prune_stable {costs : Table Exact} {k₁ : Kruskal Exact} (hn : 3 ≤ n) (hk : Reached n k)
    (hcosts : costs.Charges n cost) (hg : g.Reachable) (horder : g.order = n)
    (hundirected : g.directed = false) (hloopless : ∀ v, g.isPotential v v = false)
    (hcompute : compute costs g k = .ok () k₁) (budget : Exact) :
    ∃ pruned k₂ g', prune budget ⟨k₁, g⟩ = .ok pruned ⟨k₂, g'⟩ ∧ Reached n k₂ ∧
      ∀ l, Reached n l → ∃ l₁ l₂, compute costs g' l = .ok () l₁ ∧ l₁.bound = k₁.bound ∧
        prune budget ⟨l₁, g'⟩ = .ok { removed := 0, enforced := 0 } ⟨l₂, g'⟩ := by
  have htwo : 2 ≤ n := by omega
  have hsimple : g.IsSimple n := ⟨hg.valid, horder, hundirected, hloopless⟩
  have hcomputed := Attempt.of_wp_ok (compute_wp htwo hk.sized hcosts hsimple) hcompute
  obtain ⟨pruned, ⟨k₂, g'⟩, hprune, htightened⟩ :=
    Attempt.exists_ok (prune_wp htwo hsimple hcomputed budget)
  have hk₁ : Reached n k₁ := Attempt.after_of_ok hcompute ▸ hk.compute costs g
  have hk₂ : Reached n k₂ := by
    have hafter := hk₁.prune budget g
    rwa [Attempt.after_of_ok hprune] at hafter
  have hsettled := htightened.settled hsimple hcomputed
  have hagain : ∀ l, Reached n l → ∃ l₁ l₂, compute costs g' l = .ok () l₁ ∧
      l₁.bound = k₁.bound ∧
        prune budget ⟨l₁, g'⟩ = .ok { removed := 0, enforced := 0 } ⟨l₂, g'⟩ := by
    intro l hl
    obtain ⟨l₁, hrun, hcomputed', hbound⟩ :=
      htightened.compute_again htwo hsimple hcosts hcomputed hl.sized
    obtain ⟨l₂, hidle⟩ := hsettled.prune_eq htwo (hsimple.narrows htightened.narrows) hcomputed'
    exact ⟨l₁, l₂, hrun, hbound, hidle⟩
  exact ⟨pruned, k₂, g', hprune, hk₂, hagain⟩

/-- Three edges of the designated node are possible.  The cheapest one is enforced, as replacing it
costs too much; each of the others can replace the other one within the budget. -/
theorem prune_stable_fork :
    let lower := (Graph.empty 4 false).addEdge 1 2
    let upper := (Graph.complete 4 false).removeEdge 2 3
    let g : GraphVar := { lower, upper, log := {} }
    let costs := Table.ofFn 4 fun a b => Exact.number (2 * a + 2 * b)
    let cost : Sym2 ℕ → ℚ := Sym2.lift ⟨fun a b => 2 * a + 2 * b, fun _ _ => add_comm _ _⟩
    Reached 4 (make 4 : Kruskal Exact) ∧ costs.Charges 4 cost ∧ g.Reachable ∧ g.order = 4 ∧
      g.directed = false ∧ (∀ v, g.isPotential v v = false) ∧
      ∃ k₁ pruned k₂ g' l₁ l₂, compute costs g (make 4) = .ok () k₁ ∧
        prune (.number 22) ⟨k₁, g⟩ = .ok pruned ⟨k₂, g'⟩ ∧
        pruned = { removed := 0, enforced := 2 } ∧ compute costs g' k₂ = .ok () l₁ ∧
        l₁.bound = k₁.bound ∧
        prune (.number 22) ⟨l₁, g'⟩ = .ok { removed := 0, enforced := 0 } ⟨l₂, g'⟩ := by
  intro lower upper g costs cost
  have hk : Reached 4 (make 4 : Kruskal Exact) := .make
  have hcosts : costs.Charges 4 cost :=
    ⟨Table.square_ofFn _ _, fun a ha b hb => Table.entry_ofFn _ ha hb⟩
  have hlower : Graph.Built 4 false lower := Graph.Built.empty.addEdge (by decide) (by decide)
  have hupper : Graph.Built 4 false upper :=
    (Graph.Built.complete 4 false).removeEdge (by decide) (by decide)
  have hnested : lower.order = upper.order ∧ lower.directed = upper.directed ∧
      lower.isSubgraphOf upper := by decide +kernel
  have hg : g.Reachable := .between hlower hupper (if_pos hnested)
  have horder : g.order = 4 := rfl
  have hdirected : g.directed = false := rfl
  have hloopless : ∀ v, g.isPotential v v = false := by
    apply hg.valid.loopless
    decide +kernel
  have heval : (compute costs g).passes (fun _ k₁ => (prune (.number 22)).passes
      (fun pruned _ => pruned == { removed := 0, enforced := 2 }) ⟨k₁, g⟩) (make 4) = true := by
    decide +kernel
  obtain ⟨_, k₁, hcompute, htest⟩ := Attempt.passes_iff.mp heval
  obtain ⟨_, _, hrun, hcount⟩ := Attempt.passes_iff.mp htest
  rw [beq_iff_eq] at hcount
  subst hcount
  obtain ⟨pruned, k₂, g', hprune, hk₂, hagain⟩ :=
    prune_stable (by decide) hk hcosts hg horder hdirected hloopless hcompute (.number 22)
  obtain ⟨rfl, -⟩ := EStateM.Result.ok.inj (hrun.symm.trans hprune)
  obtain ⟨l₁, l₂, hcompute', hbound, hidle⟩ := hagain k₂ hk₂
  exact ⟨hk, hcosts, hg, horder, hdirected, hloopless, k₁, _, k₂, g', l₁, l₂, hcompute, hprune, rfl,
    hcompute', hbound, hidle⟩

end Kruskal

end GraphInterval
