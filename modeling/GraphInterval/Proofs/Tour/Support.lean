import GraphInterval.Proofs.OneTree.Spanned
import GraphInterval.Proofs.Tour.Soundness

/-!
# The one-tree told to others

The propagator tells other constraints about the one-tree of the finder that
succeeded last.  Both finders build their tree in place, so a run that fails
leaves an unfinished tree in a finder which may still be the one that is told
about.  As long as no run of a finder failed in the last propagation, the tree
is a complete one-tree, whatever the costs and the penalties are; they may
even be no numbers.  After a conflict it need not be.
-/

namespace GraphInterval

namespace Tour

open OneTree

variable {α : Type} [Scalar α] {n : ℕ} {t t₀ : Tour α} {s : Posted (Tour α) TourDomains}

/-! ### The state within a propagation -/

/-- The tables have the sizes of the graph, and the parameters are those of another state. -/
structure Fitted (n : ℕ) (t₀ t : Tour α) : Prop where
  options_eq : t.options = t₀.options
  solutionFound_eq : t.solutionFound = t₀.solutionFound
  penalties : t.penalties.size = n
  fast : t.fast.Fitted n
  thorough : t.thorough.Sized n

omit [Scalar α] in
theorem Fitted.isWaiting_eq (ht : Fitted n t₀ t) : t.isWaiting = t₀.isWaiting := by
  rw [isWaiting, isWaiting, ht.options_eq, ht.solutionFound_eq]

/-- The one-tree that is told to others is complete. -/
def Supported (n : ℕ) (t : Tour α) : Prop := ∀ tree, t.tree? = some tree → tree.Complete n

/-- A propagation goes on. -/
structure Relaxing (n : ℕ) (t₀ : Tour α) (s : Posted (Tour α) TourDomains) : Prop where
  fitted : Fitted n t₀ s.propagator
  costs : s.propagator.costs.Square n
  simple : s.domains.graph.IsSimple n

/-- A propagation stopped.  If no finder failed, the one-tree is still complete. -/
structure Interrupted (n : ℕ) (t₀ : Tour α) (failure : Failure)
    (s : Posted (Tour α) TourDomains) : Prop where
  fitted : Fitted n t₀ s.propagator
  supported : failure = .wipeout → Supported n s.propagator

/-- A propagation goes on after a finder succeeded. -/
structure Bounding (n : ℕ) (t₀ : Tour α) (s : Posted (Tour α) TourDomains) : Prop
    extends Relaxing n t₀ s where
  supported : Supported n s.propagator

omit [Scalar α] in
/-- A change to the rest of the state. -/
theorem Fitted.replace {t' : Tour α} (ht : Fitted n t₀ t) (hfast : t'.fast.Fitted n)
    (hthorough : t'.thorough.Sized n)
    (hframe : { t' with
      options := t.options
      solutionFound := t.solutionFound
      penalties := t.penalties } = t') : Fitted n t₀ t' := by
  rw [← hframe]
  exact ⟨ht.options_eq, ht.solutionFound_eq, ht.penalties, hfast, hthorough⟩

omit [Scalar α] in
theorem supported_fast (hsupport : t.support = .fast) (hcomplete : t.fast.tree.Complete n) :
    Supported n t := by
  intro tree htree
  rw [tree?, hsupport] at htree
  exact Option.some.inj htree ▸ hcomplete

omit [Scalar α] in
theorem supported_thorough (hsupport : t.support = .thorough)
    (hcomplete : t.thorough.tree.Complete n) : Supported n t := by
  intro tree htree
  rw [tree?, hsupport] at htree
  exact Option.some.inj htree ▸ hcomplete

/-! ### The iterations -/

/-- Raising the lower bound of the cost changes neither the propagator nor the graph. -/
theorem raiseCost_keeps (bound : α) (s : Posted (Tour α) TourDomains) :
    (raiseCost bound : Run α α).wp
      (fun _ s' => s'.propagator = s.propagator ∧ s'.domains.graph = s.domains.graph)
      (fun _ s' => s'.propagator = s.propagator ∧ s'.domains.graph = s.domains.graph) s := by
  refine Attempt.wp_mono (raiseCost_spec rfl) (fun _ _ h => ⟨h.2.1, h.2.2.1⟩) ?_
  rintro _ _ ⟨-, rfl, -⟩
  exact ⟨rfl, rfl⟩

theorem fastIteration_supports (hn : 2 ≤ n) (h : Relaxing n t₀ s) :
    (fastIteration : Run α α).wp (fun _ s' => Bounding n t₀ s') (Interrupted n t₀) s := by
  rw [wp_fastIteration]
  have hfit := h.fitted
  refine Attempt.wp_mono (Prim.compute_complete hn hfit.fast h.costs h.simple) ?_ ?_
  · rintro _ p ⟨hp, hcomplete, -⟩
    refine Attempt.wp_mono (raiseCost_keeps _ _) ?_ ?_
    · rintro _ ⟨t', d'⟩ ⟨rfl, hgraph⟩
      exact ⟨⟨hfit.replace hp hfit.thorough rfl, h.costs, hgraph ▸ h.simple⟩,
        supported_fast rfl hcomplete⟩
    · rintro _ ⟨t', d'⟩ ⟨rfl, -⟩
      exact ⟨hfit.replace hp hfit.thorough rfl, fun _ => supported_fast rfl hcomplete⟩
  · rintro failure p ⟨hp, hfailure⟩
    exact ⟨hfit.replace hp hfit.thorough rfl, fun hwipeout => absurd hwipeout hfailure⟩

/-- Pruning leaves the tree that the thorough finder computed. -/
theorem pruneGraph_supports (h : Relaxing n t₀ s) (hsupport : s.propagator.support = .thorough)
    (hcomplete : s.propagator.thorough.tree.Complete n) (budget : α) :
    (pruneGraph budget).wp (fun _ s' => Bounding n t₀ s') (Interrupted n t₀) s := by
  rw [wp_pruneGraph]
  have hfit := h.fitted
  refine Attempt.wp_mono (Kruskal.prune_keeps hfit.thorough h.simple.valid budget) ?_ ?_
  · rintro pruned ⟨k, g⟩ ⟨hk, htree, hnarrows⟩
    exact ⟨⟨hfit.replace hfit.fast hk rfl, h.costs, h.simple.narrows hnarrows⟩,
      supported_thorough hsupport (htree ▸ hcomplete)⟩
  · rintro failure ⟨k, g⟩ ⟨hk, htree, -⟩
    exact ⟨hfit.replace hfit.fast hk rfl,
      fun _ => supported_thorough hsupport (htree ▸ hcomplete)⟩

theorem pruningIteration_supports (hn : 2 ≤ n) (h : Relaxing n t₀ s) :
    (pruningIteration : Run α α).wp (fun _ s' => Bounding n t₀ s') (Interrupted n t₀) s := by
  rw [wp_pruningIteration]
  have hfit := h.fitted
  refine Attempt.wp_mono (Kruskal.compute_complete hn hfit.thorough h.costs h.simple) ?_ ?_
  · rintro _ k ⟨hk, hcomplete, -⟩
    refine Attempt.wp_mono (raiseCost_keeps _ _) ?_ ?_
    · rintro _ ⟨t', d'⟩ ⟨rfl, hgraph⟩
      refine pruneGraph_supports ?_ rfl hcomplete _
      exact ⟨hfit.replace hfit.fast hk rfl, h.costs, hgraph ▸ h.simple⟩
    · rintro _ ⟨t', d'⟩ ⟨rfl, -⟩
      exact ⟨hfit.replace hfit.fast hk rfl, fun _ => supported_thorough rfl hcomplete⟩
  · rintro failure k ⟨hk, hfailure⟩
    exact ⟨hfit.replace hfit.fast hk rfl, fun hwipeout => absurd hwipeout hfailure⟩

/-! ### The ascent -/

theorem Fitted.updateCosts (ht : Fitted n t₀ t) :
    Fitted n t₀ t.updateCosts ∧ t.updateCosts.costs.Square n :=
  ⟨ht.replace ht.fast ht.thorough rfl, (costs_updateCosts ht.penalties).1⟩

/-- A step changes the penalties and the costs alone. -/
theorem ascend_supports (h : Bounding n t₀ s) (alpha bound : α) :
    (ascend alpha bound).wp (fun _ s' => Bounding n t₀ s') (Interrupted n t₀) s := by
  rw [ascend, Attempt.wp_modify]
  generalize s.propagator.nextStep bound alpha s.domains.cost.upper = step
  have hfit : Fitted n t₀ { s.propagator with step } :=
    h.fitted.replace h.fitted.fast h.fitted.thorough rfl
  dsimp only
  rw [updatePenalties]
  split
  · exact ⟨⟨hfit, h.costs, h.simple⟩, h.supported⟩
  next tree _ =>
    split
    · exact ⟨⟨hfit, h.costs, h.simple⟩, h.supported⟩
    · dsimp only
      have hsize : (movedPenalties { s.propagator with step } tree).size = n :=
        Array.size_mapIdx.trans h.fitted.penalties
      generalize movedPenalties { s.propagator with step } tree = penalties at hsize
      have hmoved : Fitted n t₀ { s.propagator with
          step
          penalties
          totalPenalty := Scalar.ofInt 2 * Scalar.sum penalties.toList
          numExtremePenalties := s.propagator.numExtremePenalties + countExtreme penalties } :=
        ⟨hfit.options_eq, hfit.solutionFound_eq, hsize, hfit.fast, hfit.thorough⟩
      exact ⟨⟨hmoved.updateCosts.1, hmoved.updateCosts.2, h.simple⟩, h.supported⟩

/-- An ascent that ends with a complete one-tree unless a finder fails. -/
def supporting (n : ℕ) (t₀ : Tour α) : Stages α :=
  { before := Relaxing n t₀
    answered := fun _ => Bounding n t₀
    stepped := Bounding n t₀
    failed := Interrupted n t₀
    factor := fun _ => True }

theorem linked_supporting : (supporting n t₀).Linked := by
  refine ⟨fun _ h => ascend_supports h _ _, fun h => h, fun h => h.toRelaxing, fun h => ?_,
    fun _ => ⟨trivial, trivial⟩, fun _ _ => trivial, fun _ => trivial⟩
  exact ⟨h.fitted.replace h.fitted.fast h.fitted.thorough rfl, h.costs, h.simple⟩

theorem relaxOnce_supports (hn : 2 ≤ n) (h : Relaxing n t₀ s) :
    (relaxOnce : Run α Bool).wp (fun _ s' => Bounding n t₀ s') (Interrupted n t₀) s :=
  linked_supporting.relaxOnce_wp (fun _ h => fastIteration_supports hn h)
    (fun _ h => pruningIteration_supports hn h) h

/-- The propagator when the relaxations of a propagation start. -/
def started (t : Tour α) (g : GraphVar) : Tour α :=
  { t with
    numPropagations := t.numPropagations + 1
    mandatoryEdges := listMandatoryEdges g }.updateCosts

theorem Fitted.started (ht : Fitted n t t) {d : TourDomains} (hd : d.graph.IsSimple n) :
    Relaxing n t ⟨t.started d.graph, d⟩ := by
  have hlisted : Fitted n t { t with
      numPropagations := t.numPropagations + 1
      mandatoryEdges := listMandatoryEdges d.graph } := ht.replace ht.fast ht.thorough rfl
  exact ⟨hlisted.updateCosts.1, hlisted.updateCosts.2, hd⟩

/-- A propagator that does not wait repeats its relaxation. -/
theorem propagateFromScratch_eq {d : TourDomains} (hactive : t.isWaiting ≠ true) :
    (propagateFromScratch : Run α Unit) ⟨t, d⟩ =
      repeatWhile relaxOnce ((d.cost.upper - d.cost.lower).toNat + 1) ⟨t.started d.graph, d⟩ := by
  refine (Attempt.bind_eq_of_ok (x := get) rfl).trans ?_
  rw [if_neg hactive]
  rfl

/-- A propagator that does not wait relaxes at least once. -/
theorem propagateFromScratch_of_active {d : TourDomains} (hactive : t.isWaiting ≠ true)
    {Q : Unit → Posted (Tour α) TourDomains → Prop}
    {E : Failure → Posted (Tour α) TourDomains → Prop}
    (h : (repeatWhile relaxOnce ((d.cost.upper - d.cost.lower).toNat + 1)).wp Q E
      ⟨t.started d.graph, d⟩) :
    (propagateFromScratch : Run α Unit).wp Q E ⟨t, d⟩ := by
  rw [Attempt.wp, propagateFromScratch_eq hactive]
  exact h

/-- After a propagation, the one-tree told to others is complete unless a finder failed. -/
theorem propagateFromScratch_supports (hn : 2 ≤ n) (ht : Fitted n t t) {d : TourDomains}
    (hd : d.graph.IsSimple n) (hwaiting : t.isWaiting = true → t.support = .none) :
    (propagateFromScratch : Run α Unit).wp
      (fun _ s' => Fitted n t s'.propagator ∧ Supported n s'.propagator ∧
        (s'.propagator.isWaiting = true → s'.propagator.support = .none))
      (fun failure s' => Interrupted n t failure s' ∧
        (s'.propagator.isWaiting = true → s'.propagator.support = .none)) ⟨t, d⟩ := by
  by_cases hwaits : t.isWaiting = true
  · simp only [propagateFromScratch, Attempt.wp_bind, Attempt.wp_get, Attempt.wp_ite,
      Attempt.wp_pure]
    refine ⟨fun _ => ⟨ht, fun tree htree => ?_, hwaiting⟩, fun hactive => absurd hwaits hactive⟩
    rw [tree?, hwaiting hwaits] at htree
    cases htree
  · have hstays : ∀ {t'}, Fitted n t t' → t'.isWaiting = true → t'.support = .none :=
      fun ht' hwaits' => absurd (ht'.isWaiting_eq.symm.trans hwaits') hwaits
    apply propagateFromScratch_of_active hwaits
    refine Attempt.wp_mono (Attempt.wp_repeatWhile_of_first (I := Bounding n t)
      (relaxOnce_supports hn (ht.started hd)) (fun _ h => relaxOnce_supports hn h.toRelaxing) _)
      ?_ ?_
    · exact fun _ _ h => ⟨h.fitted, h.supported, hstays h.fitted⟩
    · exact fun _ _ h => ⟨h, hstays h.fitted⟩

/-! ### The course of a search -/

/-- The states of the propagator in a search, with the failure of the last propagation if it
failed.  Before each propagation the host may have changed the domains or taken changes back. -/
inductive Course (n : ℕ) (rows : List (List ℤ)) (options : AscentOptions α) :
    Option Failure → Tour α → Prop where
  | make {d : TourDomains} {t : Tour α} : d.WellPosed n → Tour.make rows options d = .ok t →
      Course n rows options none t
  | succeed {last : Option Failure} {t : Tour α} {d : TourDomains}
      {s : Posted (Tour α) TourDomains} : Course n rows options last t → d.WellPosed n →
      propagateFromScratch ⟨t, d⟩ = .ok () s → Course n rows options none s.propagator
  | fail {last : Option Failure} {t : Tour α} {d : TourDomains} {failure : Failure}
      {s : Posted (Tour α) TourDomains} : Course n rows options last t → d.WellPosed n →
      propagateFromScratch ⟨t, d⟩ = .error failure s →
      Course n rows options (some failure) s.propagator
  | onSolution {last : Option Failure} {t : Tour α} : Course n rows options last t →
      Course n rows options last t.onSolution

variable {rows : List (List ℤ)} {options : AscentOptions α} {last : Option Failure}

/-- What is known of every state in a search. -/
structure Standing (n : ℕ) (options : AscentOptions α) (last : Option Failure) (t : Tour α) :
    Prop where
  three_le : 3 ≤ n
  fitted : Fitted n t t
  options_eq : t.options = options
  waiting : t.isWaiting = true → t.support = .none
  supported : last = none ∨ last = some .wipeout → Supported n t

theorem standing_make {d : TourDomains} (hd : d.WellPosed n)
    (hmake : Tour.make rows options d = .ok t) : Standing n options none t := by
  obtain ⟨hn, rfl⟩ := of_make hd.order_eq hmake
  refine ⟨hn, ⟨rfl, rfl, Array.size_replicate, Prim.fitted_make n, Kruskal.sized_make n⟩,
    rfl, fun _ => rfl, fun _ tree htree => ?_⟩
  cases htree

theorem Standing.propagate (h : Standing n options last t) {d : TourDomains}
    (hd : d.WellPosed n) :
    (propagateFromScratch : Run α Unit).wp
      (fun _ s' => Standing n options none s'.propagator)
      (fun failure s' => Standing n options (some failure) s'.propagator) ⟨t, d⟩ := by
  have hn := h.three_le
  have hself : ∀ {t'}, Fitted n t t' → Fitted n t' t' := fun ht' =>
    ⟨rfl, rfl, ht'.penalties, ht'.fast, ht'.thorough⟩
  refine Attempt.wp_mono (propagateFromScratch_supports (by omega) h.fitted hd.simple h.waiting)
    ?_ ?_
  · rintro _ s' ⟨hfit, hsupported, hwaiting⟩
    exact ⟨hn, hself hfit, hfit.options_eq.trans h.options_eq, hwaiting, fun _ => hsupported⟩
  · rintro failure s' ⟨hinterrupted, hwaiting⟩
    refine ⟨hn, hself hinterrupted.fitted, hinterrupted.fitted.options_eq.trans h.options_eq,
      hwaiting, fun hlast => hinterrupted.supported ?_⟩
    exact Option.some.inj (hlast.resolve_left (by simp))

theorem Course.standing (ht : Course n rows options last t) : Standing n options last t := by
  induction ht with
  | make hd hmake => exact standing_make hd hmake
  | succeed _ hd hrun ih => exact (Attempt.of_wp_ok (ih.propagate hd) hrun :)
  | fail _ hd hrun ih => exact (Attempt.of_wp_error (ih.propagate hd) hrun :)
  | onSolution _ ih =>
      refine ⟨ih.three_le, ⟨rfl, rfl, ih.fitted.penalties, ih.fitted.fast, ih.fitted.thorough⟩,
        ih.options_eq, fun hwaits => ?_, ih.supported⟩
      rw [isWaiting, Bool.and_eq_true] at hwaits
      exact absurd hwaits.2 (by simp [Tour.onSolution])

/-- Unless the last propagation failed with a conflict or broke off with a fault, what is told to
others is that every edge is possible, or it is a complete one-tree. -/
theorem Course.support_isOneTree (ht : Course n rows options last t)
    (hlast : last = none ∨ last = some .wipeout) :
    (t.tree? = none ∧ ∀ a b, t.contains a b = true) ∨
      ∃ tree, t.tree? = some tree ∧ tree.edges.size = n ∧ IsOneTree n tree.edgeSet ∧
        ∀ a < n, ∀ b < n, (t.contains a b = true ↔ s(a, b) ∈ tree.edgeSet) := by
  have hsupported := ht.standing.supported hlast
  cases htree : t.tree? with
  | none => exact .inl ⟨rfl, fun a b => by rw [contains, htree]; rfl⟩
  | some tree =>
      obtain ⟨hsize, hone, hcontains⟩ := hsupported tree htree
      refine .inr ⟨tree, rfl, hsize, hone, fun a ha b hb => ?_⟩
      rw [contains, htree]
      exact hcontains a ha b hb

/-! ### After a conflict -/

/-- Without batches of fast iterations, a relaxation ends with the thorough finder. -/
theorem relaxOnce_single (hsingle : s.propagator.options.numOuterIterations = 0) :
    (relaxOnce : Run α Bool).wp
      (fun _ s' => s'.propagator.support = .thorough ∧
        s'.propagator.options.numOuterIterations = 0)
      (fun _ _ => True) s := by
  simp only [relaxOnce, relax, pruningIteration, computeWith, pruneGraph, Posted.update,
    Attempt.wp_bind, Attempt.wp_get, Attempt.wp_modify, Attempt.wp_within, Attempt.wp_pure]
  refine Attempt.wp_mono (Attempt.wp_trivial _ _) (fun _ k _ => ?_) fun _ _ _ => trivial
  refine Attempt.wp_mono (raiseCost_keeps _ _) ?_ fun _ _ _ => trivial
  rintro _ ⟨t', d'⟩ ⟨rfl, -⟩
  refine Attempt.wp_mono (Attempt.wp_trivial _ _) (fun _ _ _ => ?_) fun _ _ _ => trivial
  rw [hsingle]
  exact ⟨rfl, hsingle⟩

theorem propagateFromScratch_single {d : TourDomains} (hactive : t.isWaiting ≠ true)
    (hsingle : t.options.numOuterIterations = 0) :
    (propagateFromScratch : Run α Unit).wp (fun _ s' => s'.propagator.support = .thorough)
      (fun _ _ => True) ⟨t, d⟩ := by
  apply propagateFromScratch_of_active hactive
  exact Attempt.wp_mono (Attempt.wp_repeatWhile_of_first
    (I := fun s' : Posted (Tour α) TourDomains => s'.propagator.support = .thorough ∧
      s'.propagator.options.numOuterIterations = 0)
    (relaxOnce_single hsingle) (fun _ h => relaxOnce_single h.2) _) (fun _ _ h => h.1)
    fun _ _ _ => trivial

/-- Without edges between inner nodes there is a conflict, and the thorough finder is left with a
tree without edges. -/
theorem propagateFromScratch_barren (ht : Standing n options last t) {d : TourDomains}
    (hd : d.graph.IsSimple n) (hactive : t.isWaiting ≠ true)
    (hnone : Kruskal.possiblePairs n d.graph = []) :
    (propagateFromScratch : Run α Unit).wp (fun _ _ => False)
      (fun failure s' => failure = .conflict detector ∧ s'.propagator.support = t.support ∧
        s'.propagator.thorough.tree.edges = #[]) ⟨t, d⟩ := by
  have hstart := ht.fitted.started hd
  apply propagateFromScratch_of_active hactive
  simp only [repeatWhile, relaxOnce, relax, pruningIteration, computeWith, Posted.update,
    Attempt.wp_bind, Attempt.wp_get, Attempt.wp_modify, Attempt.wp_within]
  refine Attempt.wp_mono (Kruskal.compute_barren ht.three_le ht.fitted.thorough hstart.costs hd
    hnone) (fun _ _ h => h.elim) fun _ _ h => ⟨h.1, rfl, h.2⟩

/-! ### Four nodes -/

section Four

/-- Every edge between two different nodes costs one. -/
def unitRows : List (List ℤ) := [[0, 1, 1, 1], [1, 0, 1, 1], [1, 1, 0, 1], [1, 1, 1, 0]]

/-- One pruning iteration in every relaxation, and no fast ones. -/
def singlePass : AscentOptions ℚ :=
  { waitForFirstSolution := false, numSprints := 0, numOuterIterations := 0
    initialAlpha := 2, initialBeta := 1 / 2, integralityTolerance := 1 / 1000
    pruningEpsilon := 1 / 1000, stagnationOffset := 1 / 10 }

/-- Four nodes with some edges excluded. -/
def fourWithout (edges : List Edge) : TourDomains :=
  { graph := edges.foldl (fun g e => (GraphVar.Mutation.removeEdge e.1 e.2).run.after g)
      (completeFour [])
    cost := { lower := 0, upper := 100, trail := {} } }

theorem reachable_fourWithout (edges : List Edge) : (fourWithout edges).graph.Reachable :=
  List.foldlRecOn (motive := GraphVar.Reachable) edges _ (reachable_completeFour [])
    fun _ hg _ _ => .mutate _ hg

theorem potential_four :
    ∀ a < 4, ∀ b < 4, (fourWithout []).graph.isPotential a b = !decide (a = b) := by
  decide +kernel

theorem wellPosed_four : (fourWithout []).WellPosed 4 := by
  have hg := reachable_fourWithout []
  have hsimple := Kruskal.isSimple_of_complete hg rfl rfl potential_four
  exact ⟨hg, rfl, rfl, hsimple.loopless, by decide⟩

/-- The tour along all four nodes. -/
def fourCycle : Finset (Sym2 ℕ) := {s(0, 1), s(1, 2), s(2, 3), s(3, 0)}

/-- The cost of an edge is one. -/
def unitCost (e : Sym2 ℕ) : ℤ := if e.IsDiag then 0 else 1

theorem admits_fourCycle : (fourWithout []).Admits unitCost fourCycle := by
  have hmandatory : ∀ a < 4, ∀ b < 4, (fourWithout []).graph.isMandatory a b = false := by
    decide +kernel
  refine ⟨fun a b hab => ?_, fun a b hab => ?_, by decide, by decide⟩
  · simp only [fourCycle, Finset.mem_insert, Finset.mem_singleton, Sym2.eq_iff] at hab
    have hlt : a < 4 ∧ b < 4 ∧ a ≠ b := by omega
    rw [potential_four a hlt.1 b hlt.2.1]
    simp [hlt.2.2]
  · have hpotential := (reachable_fourWithout []).valid.isPotential hab
    obtain ⟨ha, hb⟩ := wellPosed_four.simple.lt_of_isPotential hpotential
    exact absurd ((hmandatory a ha b hb).symm.trans hab) (by simp)

/-- The propagator does not wait for a solution. -/
theorem not_isWaiting_singlePass {t : Tour Exact} (h : t.options = singlePass.exact) :
    t.isWaiting ≠ true := by
  rw [isWaiting, h]
  simp [AscentOptions.exact, singlePass]

/-- A first propagation on the complete graph leaves the thorough finder with the one-tree. -/
theorem exists_course_thorough :
    ∃ t, Course 4 unitRows singlePass.exact none t ∧ t.support = .thorough := by
  have hd := wellPosed_four
  have hrows : Prices 4 unitRows unitCost := by
    unfold Prices
    decide
  obtain ⟨t, hmake⟩ : ∃ t, Tour.make unitRows singlePass.exact (fourWithout []) = .ok t := ⟨_, rfl⟩
  obtain ⟨hn, hsettled⟩ := settled_make hd hrows hmake
  have hε : 0 ≤ singlePass.pruningEpsilon := by
    norm_num [singlePass]
  have hisTour : ∀ H ∈ ({fourCycle} : Set (Finset (Sym2 ℕ))), IsTour 4 H := by
    rintro H rfl
    exact ⟨[0, 1, 2, 3], .refl _, rfl⟩
  have hadmits : ∀ H ∈ ({fourCycle} : Set (Finset (Sym2 ℕ))),
      (fourWithout []).Admits unitCost H := by
    rintro H rfl
    exact admits_fourCycle
  have hwp := propagateFromScratch_wp hn hε (s := ⟨t, fourWithout []⟩) hsettled hd.simple hd.range
    hisTour hadmits
  obtain ⟨_, s, hrun, -⟩ := Attempt.exists_ok
    (Attempt.wp_mono hwp (fun _ _ h => h) fun _ _ h => h.none fourCycle rfl)
  have hsingle : t.options.numOuterIterations = 0 := by
    rw [hsettled.options_eq]
    rfl
  have hactive := not_isWaiting_singlePass hsettled.options_eq
  exact ⟨s.propagator, .succeed (.make hd hmake) hd hrun,
    (Attempt.of_wp_ok (propagateFromScratch_single hactive hsingle) hrun :)⟩

/-- In the complete graph over four nodes, a one-tree is told after the first propagation. -/
theorem support_isOneTree_four :
    ∃ t tree, Course 4 unitRows singlePass.exact none t ∧ t.tree? = some tree ∧
      tree.edges.size = 4 ∧ IsOneTree 4 tree.edgeSet ∧
      ∀ a < 4, ∀ b < 4, (t.contains a b = true ↔ s(a, b) ∈ tree.edgeSet) := by
  obtain ⟨t, ht, hsupport⟩ := exists_course_thorough
  obtain ⟨hnone, -⟩ | ⟨tree, htree, hrest⟩ := ht.support_isOneTree (.inl rfl)
  · rw [tree?, hsupport] at hnone
    cases hnone
  · exact ⟨t, tree, ht, htree, hrest⟩

/-- Once all edges between the inner nodes are excluded, the next propagation ends in a conflict,
and a tree without edges is told. -/
theorem support_empty_after_conflict :
    ∃ t tree, Course 4 unitRows singlePass.exact (some (.conflict detector)) t ∧
      t.tree? = some tree ∧ tree.edges.size = 0 ∧ ¬ IsOneTree 4 tree.edgeSet ∧
      ∀ a < 4, ∀ b < 4, t.contains a b = false := by
  obtain ⟨t, ht, hsupport⟩ := exists_course_thorough
  have hg := reachable_fourWithout [(1, 2), (1, 3), (2, 3)]
  have hloopless : ∀ a < 4, (fourWithout [(1, 2), (1, 3), (2, 3)]).graph.isPotential a a =
      false := by decide +kernel
  have hnone : Kruskal.possiblePairs 4 (fourWithout [(1, 2), (1, 3), (2, 3)]).graph = [] := by
    decide +kernel
  have hd : (fourWithout [(1, 2), (1, 3), (2, 3)]).WellPosed 4 :=
    ⟨hg, rfl, rfl, hg.valid.loopless hloopless, by decide⟩
  have hwp := propagateFromScratch_barren ht.standing hd.simple
    (not_isWaiting_singlePass ht.standing.options_eq) hnone
  cases hrun : propagateFromScratch ⟨t, fourWithout [(1, 2), (1, 3), (2, 3)]⟩ with
  | ok value s => exact (Attempt.of_wp_ok hwp hrun).elim
  | error failure s =>
      obtain ⟨rfl, hkept, hedges⟩ := Attempt.of_wp_error hwp hrun
      have ht' : Course 4 unitRows singlePass.exact _ s.propagator := .fail ht hd hrun
      have htree : s.propagator.tree? = some s.propagator.thorough.tree := by
        rw [tree?, hkept, hsupport]
      have hset : s.propagator.thorough.tree.edgeSet = ∅ := by
        rw [edgeSet, hedges]
        rfl
      refine ⟨_, _, ht', htree, by rw [hedges]; rfl, fun hone => ?_, fun a _ b _ => ?_⟩
      · have htwo := hone.two
        rw [hset] at htwo
        exact absurd htwo (by decide)
      · rw [Bool.eq_false_iff, contains, htree]
        intro hmarked
        obtain ⟨e, he, -⟩ := ht'.standing.fitted.thorough.tree.marked _ hmarked
        rw [hedges] at he
        cases he

end Four

end Tour

end GraphInterval
