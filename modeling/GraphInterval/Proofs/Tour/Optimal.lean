import GraphInterval.Proofs.OneTree.Complete
import GraphInterval.Proofs.Tour.HeldKarp
import GraphInterval.Proofs.Tour.Iteration
import GraphInterval.Proofs.Tour.Regular

/-!
# The goal of the ascent

A one-tree in which every node has two edges is a Hamiltonian cycle, and as it
is a cheapest one-tree under the penalised costs, it is a cheapest Hamiltonian
cycle under the posted ones: the penalties raise the costs of all of them
alike.  An iteration that meets such a one-tree puts its cost on the lower
bound, and the step after it moves no penalty.
-/

namespace GraphInterval

open OneTree Exact

variable {n : ℕ} {c : Sym2 ℕ → ℤ} {o : AscentOptions ℚ} {π : ℕ → ℚ} {cost : Sym2 ℕ → ℚ}
variable {g : GraphVar} {T H : Finset (Sym2 ℕ)}

/-! ### One-trees in which every node has two edges -/

/-- A Hamiltonian cycle of possible edges that costs no more than any other one with all mandatory
edges.  It has them itself, unless the inner ones close a cycle. -/
structure IsOptimalTour (n : ℕ) (c : Sym2 ℕ → ℤ) (g : GraphVar) (T : Finset (Sym2 ℕ)) : Prop where
  isTour : IsTour n T
  possible : ∀ e ∈ T, e ∈ g.possibleEdges
  mandatory : MandatoryAcyclic g → ∀ e ∈ g.mandatoryEdges, e ∈ T
  least : ∀ H, Candidate (IsTour n) g.mandatoryEdges g.possibleEdges H →
    ∑ e ∈ T, c e ≤ ∑ e ∈ H, c e

/-- The record of a one-tree of possible edges that is a cheapest one, unless the inner mandatory
edges close a cycle. -/
structure OneTree.Minimises (n : ℕ) (cost : Sym2 ℕ → ℚ) (g : GraphVar) (tree : OneTree Exact) :
    Prop where
  represents : tree.Represents n cost
  isOneTree : IsOneTree n tree.edgeSet
  possible : ∀ e ∈ tree.edgeSet, e ∈ g.possibleEdges
  cheapest : MandatoryAcyclic g →
    IsCheapest (IsOneTree n) g.mandatoryEdges g.possibleEdges cost tree.edgeSet

theorem Kruskal.Computed.minimises {k : Kruskal Exact} (h : k.Computed n cost g) :
    k.tree.Minimises n cost g :=
  ⟨h.represents, h.cheapest.candidate.base, h.cheapest.candidate.possible, fun _ => h.cheapest⟩

theorem Prim.compute_minimises {costs : Table Exact} {p p' : Prim Exact} (hn : 2 ≤ n)
    (hp : p.Sized n) (hcosts : costs.Charges n cost) (hg : g.IsSimple n)
    (hrun : Prim.compute costs g p = .ok () p') : p'.tree.Minimises n cost g := by
  have hcandidate := Attempt.of_wp_ok
    (Prim.compute_feasible hn hp hcosts.square costs.comparable_exact hg) hrun
  obtain ⟨hrepresents, hcheapest⟩ := Attempt.of_wp_ok (Prim.compute_wp hn hp hcosts hg) hrun
  refine ⟨hrepresents, hcandidate.base, hcandidate.possible, fun hacyclic => ?_⟩
  obtain ⟨S, hS⟩ := hacyclic.exists_candidate hn hg hcandidate
  exact hcheapest S hS

namespace OneTree.Minimises

variable {tree : OneTree Exact}

theorem isTour (hn : 3 ≤ n) (h : tree.Minimises n cost g)
    (hdegree : ∀ v < n, tree.degree v = 2) : IsTour n tree.edgeSet :=
  h.isOneTree.isTour hn fun v hv => (h.represents.degree_eq v hv).symm.trans (hdegree v hv)

/-- The penalties cancel: without them, the cycle costs no more than any other one. -/
theorem isOptimalTour (hn : 3 ≤ n) (h : tree.Minimises n (penalised (fun e => c e) π) g)
    (hdegree : ∀ v < n, tree.degree v = 2) : IsOptimalTour n c g tree.edgeSet := by
  have htour := h.isTour hn hdegree
  refine ⟨htour, h.possible, fun hacyclic => (h.cheapest hacyclic).candidate.mandatory,
    fun H hH => ?_⟩
  have hcandidate := hH.oneTree_of_tour hn
  have hle := Tour.bound_le_cost hn hH.base
    ((h.cheapest (mandatoryAcyclic_of_candidate hcandidate)).le H hcandidate)
  rw [Tour.cost_penalised hn htour, add_sub_cancel_right] at hle
  exact_mod_cast hle

/-- The cost of the record less the penalties of all nodes is the posted cost of the cycle. -/
theorem cost_sub (hn : 3 ≤ n) (h : tree.Minimises n (penalised (fun e => c e) π) g)
    (hdegree : ∀ v < n, tree.degree v = 2) :
    tree.cost - .number (2 * ((List.range n).map π).sum) =
      .number ((∑ e ∈ tree.edgeSet, c e : ℤ) : ℚ) := by
  rw [h.represents.cost_eq, Tour.cost_penalised hn (h.isTour hn hdegree), number_sub_number,
    add_sub_cancel_right]

end OneTree.Minimises

namespace Tour

variable {t : Tour Exact} {d : TourDomains} {s : Posted (Tour Exact) TourDomains}
variable {tree : OneTree Exact} {z : ℤ}

/-! ### The bound and the step -/

/-- An integral bound is not changed by rounding, whatever the tolerance is. -/
theorem settle_integer (tolerance : Exact) (z : ℤ) :
    settle tolerance (.number z) = .number z := by
  have hfloor : Scalar.floor (Exact.number z) = .number z :=
    congrArg (fun m : ℤ => Exact.number m) (Int.floor_intCast z)
  rw [settle, hfloor, ite_self]

/-- An integral bound is put on the cost, or it exceeds the upper bound. -/
theorem raiseCost_integer (z : ℤ) : (raiseCost (.number z) : Run Exact Exact).wp
    (fun _ s' => s'.propagator = s.propagator ∧ s'.domains.graph = s.domains.graph ∧
      clampInt32 z ≤ s'.domains.cost.lower)
    (fun failure _ => failure = .wipeout ∧ s.domains.cost.upper < clampInt32 z) s := by
  have hspec := raiseCost_spec (s := s) (settle_integer _ z)
  rw [toInt32_ceil, Int.ceil_intCast] at hspec
  refine Attempt.wp_mono hspec ?_ fun _ _ h => ⟨h.1, h.2.2⟩
  rintro _ s' ⟨-, hpropagator, hgraph, -, hlower, -⟩
  exact ⟨hpropagator, hgraph, hlower ▸ le_max_right _ _⟩

/-- The step is zero if every node of the last one-tree has two edges. -/
theorem nextStep_eq_zero (htree : t.tree? = some tree) (horder : tree.order = n)
    (hdegree : ∀ v < n, tree.degree v = 2) (bound alpha : Exact) (upper : ℤ) :
    t.nextStep bound alpha upper = Scalar.ofInt 0 := by
  have hnone : (List.range tree.order).map (squaredViolation tree) =
      ((List.range n).map fun _ => (0 : ℚ)).map number := by
    rw [horder, List.map_map]
    refine List.map_congr_left fun v hv => ?_
    simp [squaredViolation, hdegree v (List.mem_range.mp hv)]
  have hsum : Scalar.sum ((List.range tree.order).map (squaredViolation tree)) =
      Scalar.ofInt 0 := by
    rw [hnone, sum_number]
    simp
  simp only [nextStep, htree, hsum]
  exact if_pos (beq_iff.mpr rfl)

/-- After such a one-tree, the ascent sets the step to zero and changes nothing else. -/
theorem ascend_of_tour (htree : s.propagator.tree? = some tree) (horder : tree.order = n)
    (hdegree : ∀ v < n, tree.degree v = 2) (alpha bound : Exact) :
    ascend alpha bound s =
      .ok () { s with propagator := { s.propagator with step := Scalar.ofInt 0 } } := by
  have hstep := nextStep_eq_zero htree horder hdegree bound alpha s.domains.cost.upper
  have hidle : { s.propagator with step := Scalar.ofInt 0 }.updatePenalties =
      { s.propagator with step := Scalar.ofInt 0 } := by
    rw [updatePenalties]
    split
    · rfl
    · exact if_pos (beq_iff.mpr rfl)
  change EStateM.Result.ok () { s with
    propagator := { s.propagator with
      step := s.propagator.nextStep bound alpha s.domains.cost.upper }.updatePenalties } = _
  rw [hstep, hidle]

/-! ### The iterations -/

/-- What an iteration leaves that met a one-tree of an integral cost. -/
structure Met (tree : OneTree Exact) (z : ℤ) (t : Tour Exact)
    (s : Posted (Tour Exact) TourDomains) : Prop where
  tree_eq : s.propagator.tree? = some tree
  penalties_eq : s.propagator.penalties = t.penalties
  totalPenalty_eq : s.propagator.totalPenalty = t.totalPenalty
  costs_eq : s.propagator.costs = t.costs
  lower : clampInt32 z ≤ s.domains.cost.lower

theorem fastIteration_met {p' : Prim Exact} (hrun : Prim.compute t.costs d.graph t.fast = .ok () p')
    (hbound : p'.bound - t.totalPenalty = .number z) :
    (fastIteration : Run Exact Exact).wp (fun _ s => Met p'.tree z t s)
      (fun failure _ => failure = .wipeout ∧ d.cost.upper < clampInt32 z) ⟨t, d⟩ := by
  rw [wp_fastIteration]
  apply Attempt.wp_of_ok hrun
  rw [hbound]
  refine Attempt.wp_mono (raiseCost_integer z) ?_ fun _ _ h => h
  rintro _ ⟨t', d'⟩ ⟨rfl, -, hlower⟩
  exact ⟨rfl, rfl, rfl, rfl, hlower⟩

theorem pruningIteration_met {k' : Kruskal Exact} (hn : 2 ≤ n) (hg : d.graph.IsSimple n)
    (hrun : Kruskal.compute t.costs d.graph t.thorough = .ok () k')
    (hcomputed : k'.Computed n cost d.graph)
    (hbound : k'.bound - t.totalPenalty = .number z) :
    (pruningIteration : Run Exact Exact).wp (fun _ s => Met k'.tree z t s)
      (fun failure _ => failure = .wipeout ∧ d.cost.upper < clampInt32 z) ⟨t, d⟩ := by
  rw [wp_pruningIteration]
  apply Attempt.wp_of_ok hrun
  rw [hbound]
  refine Attempt.wp_mono (raiseCost_integer z) ?_ fun _ _ h => h
  rintro _ ⟨t', d'⟩ ⟨rfl, hgraph, hlower⟩
  rw [wp_pruneGraph]
  rw [show d'.graph = d.graph from hgraph]
  -- with a cheapest one-tree, pruning never empties the graph
  refine Attempt.wp_mono (Attempt.wp_and (Kruskal.prune_wp hn hg hcomputed _)
    (Kruskal.prune_keeps hcomputed.sized hg.valid _)) ?_ fun _ _ h => h.1.elim
  rintro _ ⟨k, g⟩ ⟨-, -, htree, -⟩
  exact ⟨congrArg some htree, rfl, rfl, rfl, hlower⟩

/-! ### The main result -/

/-- A one-tree with two edges at every node is an optimal tour and its cost the bound; if the cost
is one of 32 bits, the iteration attains it or finds it above the upper bound; and the penalties
rest. -/
structure AtGoal (n : ℕ) (c : Sym2 ℕ → ℤ) (t : Tour Exact) (d : TourDomains)
    (T : Finset (Sym2 ℕ)) (bound : Exact) (iteration : Run Exact Exact) : Prop where
  optimal : IsOptimalTour n c d.graph T
  bound_eq : bound = .number ((∑ e ∈ T, c e : ℤ) : ℚ)
  attains : -2 ^ 31 ≤ ∑ e ∈ T, c e → ∑ e ∈ T, c e < 2 ^ 31 →
    ∀ answer s, iteration ⟨t, d⟩ = .ok answer s → ∑ e ∈ T, c e ≤ s.domains.cost.lower
  exceeds : -2 ^ 31 ≤ ∑ e ∈ T, c e → ∑ e ∈ T, c e < 2 ^ 31 →
    ∀ failure s, iteration ⟨t, d⟩ = .error failure s →
      failure = .wipeout ∧ d.cost.upper < ∑ e ∈ T, c e
  rests : ∀ answer s alpha, iteration ⟨t, d⟩ = .ok answer s →
    ascend alpha answer s =
        .ok () { s with propagator := { s.propagator with step := Scalar.ofInt 0 } } ∧
      s.propagator.penalties = t.penalties ∧ s.propagator.totalPenalty = t.totalPenalty ∧
      s.propagator.costs = t.costs

theorem clampInt32_eq (hlow : -2 ^ 31 ≤ z) (hhigh : z < 2 ^ 31) : clampInt32 z = z := by
  rw [clampInt32]
  omega

/-- An iteration that meets such a one-tree is at its goal. -/
theorem AtGoal.of_met (hn : 3 ≤ n) {iteration : Run Exact Exact} {bound : Exact}
    (hminimises : tree.Minimises n (penalised (fun e => c e) π) d.graph)
    (hdegree : ∀ v < n, tree.degree v = 2)
    (hbound : bound = .number ((∑ e ∈ tree.edgeSet, c e : ℤ) : ℚ))
    (hmet : iteration.wp (fun _ s => Met tree (∑ e ∈ tree.edgeSet, c e) t s)
      (fun failure _ => failure = .wipeout ∧
        d.cost.upper < clampInt32 (∑ e ∈ tree.edgeSet, c e)) ⟨t, d⟩) :
    AtGoal n c t d tree.edgeSet bound iteration := by
  refine ⟨hminimises.isOptimalTour hn hdegree, hbound, fun hlow hhigh _ s hok => ?_,
    fun hlow hhigh _ s herror => ?_, fun answer s alpha hok => ?_⟩
  · have hlower := (Attempt.of_wp_ok hmet hok).lower
    rwa [clampInt32_eq hlow hhigh] at hlower
  · have hfailure := Attempt.of_wp_error hmet herror
    rwa [clampInt32_eq hlow hhigh] at hfailure
  · have hs := Attempt.of_wp_ok hmet hok
    exact ⟨ascend_of_tour hs.tree_eq hminimises.represents.sized.order_eq hdegree alpha answer,
      hs.penalties_eq, hs.totalPenalty_eq, hs.costs_eq⟩

/-- With any penalties, a one-tree of either finder in which every node has two edges is a cheapest
Hamiltonian cycle, and the iteration that computes it reaches its cost and leaves the penalties. -/
theorem atGoal_of_degree_two (hn : 3 ≤ n) (ht : Charged n c o π t) (hg : d.graph.IsSimple n) :
    (∀ p', Prim.compute t.costs d.graph t.fast = .ok () p' → (∀ v < n, p'.tree.degree v = 2) →
        AtGoal n c t d p'.tree.edgeSet (p'.bound - t.totalPenalty) fastIteration) ∧
      ∀ k', Kruskal.compute t.costs d.graph t.thorough = .ok () k' →
        (∀ v < n, k'.tree.degree v = 2) →
        AtGoal n c t d k'.tree.edgeSet (k'.bound - t.totalPenalty) pruningIteration := by
  constructor
  · intro p' hrun hdegree
    have hminimises := Prim.compute_minimises (by omega) ht.fast ht.costs hg hrun
    have hbound : p'.bound - t.totalPenalty = .number ((∑ e ∈ p'.tree.edgeSet, c e : ℤ) : ℚ) := by
      rw [Prim.bound, ht.totalPenalty_eq, hminimises.cost_sub hn hdegree]
    exact .of_met hn hminimises hdegree hbound (fastIteration_met hrun hbound)
  · intro k' hrun hdegree
    have hcomputed := Attempt.of_wp_ok
      (Kruskal.compute_wp (by omega) ht.thorough ht.costs hg) hrun
    have hminimises := hcomputed.minimises
    have hbound : k'.bound - t.totalPenalty = .number ((∑ e ∈ k'.tree.edgeSet, c e : ℤ) : ℚ) := by
      rw [Kruskal.bound, ht.totalPenalty_eq, hminimises.cost_sub hn hdegree]
    exact .of_met hn hminimises hdegree hbound
      (pruningIteration_met (by omega) hg hrun hcomputed hbound)

/-- A triangle with penalties, where the cost of an edge is the sum of its nodes. -/
theorem atGoal_of_degree_two_triangle :
    let c : Sym2 ℕ → ℤ := Sym2.lift ⟨fun a b => (a : ℤ) + b, fun a b => add_comm (a : ℤ) b⟩
    let π : ℕ → ℚ := fun v => v / 2
    let d : TourDomains :=
      { graph := .unconstrained 3 false, cost := { lower := 0, upper := 9, trail := {} } }
    let t : Tour Exact := updateCosts
      { options := AscentOptions.usual.exact
        edgeCosts := Table.ofRows [[0, 1, 2], [1, 2, 3], [2, 3, 4]]
        costs := Table.replicate 3 (.number 0)
        penalties := #[.number 0, .number (1 / 2), .number 1], totalPenalty := .number 3
        step := .number 0, mandatoryEdges := [], solutionFound := false, fast := Prim.make 3
        thorough := Kruskal.make 3, support := .none }
    Charged 3 c .usual π t ∧ d.graph.IsSimple 3 ∧
      (∃ p', Prim.compute t.costs d.graph t.fast = .ok () p' ∧ (∀ v < 3, p'.tree.degree v = 2) ∧
        AtGoal 3 c t d p'.tree.edgeSet (p'.bound - t.totalPenalty) fastIteration) ∧
      ∃ k', Kruskal.compute t.costs d.graph t.thorough = .ok () k' ∧
        (∀ v < 3, k'.tree.degree v = 2) ∧
        AtGoal 3 c t d k'.tree.edgeSet (k'.bound - t.totalPenalty) pruningIteration := by
  intro c π d t
  have hcosts : ∀ a < 3, ∀ b < 3,
      (Table.ofRows [[0, 1, 2], [1, 2, 3], [2, 3, 4]]).entry a b 0 = c s(a, b) := by decide
  have hpenalties : [Exact.number 0, .number (1 / 2), .number 1] =
      ((List.range 3).map π).map number := by decide +kernel
  have htotal : Exact.number 3 = .number (2 * ((List.range 3).map π).sum) := by decide +kernel
  have ht : Charged 3 c .usual π t := Settled.updateCosts
    ⟨rfl, hcosts, hpenalties, htotal, Prim.sized_make 3, Kruskal.sized_make 3⟩
  have hg : d.graph.IsSimple 3 := Kruskal.isSimple_of_complete (.unconstrained 3 false) rfl rfl
    (by decide +kernel)
  have hprim : (Prim.compute t.costs d.graph).passes
      (fun _ p' => (List.range 3).all (p'.tree.degree · == 2)) t.fast = true := by
    decide +kernel
  have hkruskal : (Kruskal.compute t.costs d.graph).passes
      (fun _ k' => (List.range 3).all (k'.tree.degree · == 2)) t.thorough = true := by
    decide +kernel
  obtain ⟨_, p', hprun, hpdegree⟩ := Attempt.passes_iff.mp hprim
  obtain ⟨_, k', hkrun, hkdegree⟩ := Attempt.passes_iff.mp hkruskal
  obtain ⟨hfast, hthorough⟩ := atGoal_of_degree_two (by decide) ht hg
  have hptwo : ∀ v < 3, p'.tree.degree v = 2 := by
    simpa using List.all_eq_true.mp hpdegree
  have hktwo : ∀ v < 3, k'.tree.degree v = 2 := by
    simpa using List.all_eq_true.mp hkdegree
  exact ⟨ht, hg, ⟨p', hprun, hptwo, hfast p' hprun hptwo⟩, k', hkrun, hktwo,
    hthorough k' hkrun hktwo⟩

end Tour

end GraphInterval
