import GraphInterval.Proofs.Tour.Support

/-!
# The balance of the penalties

The degrees of a one-tree over `n` nodes add up to `2 * n`.  A step moves the
penalty of a node in proportion to its degree less two, so a step after a
complete one-tree leaves the sum of the penalties as it is.  It starts at zero
and stays there, and with it the total penalty, whatever the costs and the
parameters are, and however a propagation ends.

That the costs are in step with the penalties matters where a finder reads
them, in the midst of a propagation.  An alarm that would sound there, if they
were not, changes nothing.
-/

namespace GraphInterval

open OneTree Exact

namespace Tour

/-! ### Watching the calls of the finders -/

section Watching

variable {α : Type} [Scalar α]

/-- Sounds an alarm before an iteration unless the propagator passes a test.  Every iteration calls
its finder at once, after counting itself. -/
def watched (test : Tour α → Bool) (alarm : Failure) (iteration : Run α α) : Run α α := do
  if test (← get).propagator then iteration else throw alarm

variable {t : Tour α} {s : Posted (Tour α) TourDomains}

/-- A propagation that does not wait calls a finder, so an alarm that always sounds is heard. -/
theorem propagateBy_never (hactive : t.isWaiting ≠ true) (alarm : Failure) (d : TourDomains) :
    ∃ s, propagateBy (watched (fun _ => false) alarm fastIteration)
      (watched (fun _ => false) alarm pruningIteration) ⟨t, d⟩ = .error alarm s := by
  refine (Attempt.exists_error_iff (P := False) ?_).mpr not_false
  simp only [propagateBy, repeatWhile, relaxOnceBy, relaxBy, watched, Posted.update,
    Attempt.wp_bind, Attempt.wp_get, Attempt.wp_ite, Attempt.wp_pure, Attempt.wp_modify,
    Attempt.wp_throw]
  exact ⟨fun hwaits => absurd hwaits hactive, fun _ => ⟨fun h => absurd h Bool.false_ne_true,
    fun _ => ⟨trivial, not_false⟩⟩⟩

omit [Scalar α] in
theorem watched_eq {test : Tour α → Bool} (htest : test s.propagator = true) (alarm : Failure)
    (iteration : Run α α) : watched test alarm iteration s = iteration s := by
  change (if test s.propagator = true then iteration else throw alarm) s = iteration s
  rw [if_pos htest]

end Watching

/-! ### The penalties and the costs -/

variable {n : ℕ} {rows : List (List ℤ)} {o : AscentOptions ℚ} {t : Tour Exact}
variable {s : Posted (Tour Exact) TourDomains} {alpha bound : Exact}

/-- There is a penalty for every node, and the penalties add up to zero. -/
structure Balanced (n : ℕ) (t : Tour Exact) : Prop where
  size_eq : t.penalties.size = n
  sum_eq : Scalar.sum t.penalties.toList = .number 0
  totalPenalty_eq : t.totalPenalty = .number 0

/-- The costs are the posted ones plus the penalties of both endpoints. -/
def InStep (n : ℕ) (rows : List (List ℤ)) (t : Tour Exact) : Prop :=
  ∀ a < n, ∀ b < n, t.costs.cost a b = Scalar.ofInt ((Table.ofRows rows).entry a b 0) +
    t.penalties.getD a (Scalar.ofInt 0) + t.penalties.getD b (Scalar.ofInt 0)

instance : Decidable (Balanced n t) :=
  decidable_of_iff
    (t.penalties.size = n ∧ Scalar.sum t.penalties.toList = .number 0 ∧ t.totalPenalty = .number 0)
    ⟨fun h => ⟨h.1, h.2.1, h.2.2⟩, fun h => ⟨h.size_eq, h.sum_eq, h.totalPenalty_eq⟩⟩

instance : Decidable (InStep n rows t) :=
  inferInstanceAs (Decidable (∀ a, a < n → ∀ b, b < n → _ = _))

/-- The test of the penalties and the costs at the call of a finder. -/
def isInBalance (n : ℕ) (rows : List (List ℤ)) (t : Tour Exact) : Bool :=
  decide (Balanced n t ∧ InStep n rows t)

/-- The state between two propagations. -/
structure Level (n : ℕ) (rows : List (List ℤ)) (o : AscentOptions ℚ) (t : Tour Exact) : Prop where
  options_eq : t.options = o.exact
  edgeCosts_eq : t.edgeCosts = Table.ofRows rows
  penalties : ∃ π, HasPenalties n π t ∧ ∑ v ∈ Finset.range n, π v = 0
  totalPenalty_eq : t.totalPenalty = .number 0
  fast : t.fast.Fitted n
  thorough : t.thorough.Sized n

/-- The state between two iterations. -/
structure Aligned (n : ℕ) (rows : List (List ℤ)) (o : AscentOptions ℚ) (t : Tour Exact) : Prop
    extends Level n rows o t where
  square : t.costs.Square n
  costs_eq : ∀ a < n, ∀ b < n, t.costs.cost a b = t.penalisedCost a b

/-- A change to other parts of the state. -/
theorem Level.replace {t' : Tour Exact} (ht : Level n rows o t) (hfast : t'.fast.Fitted n)
    (hthorough : t'.thorough.Sized n)
    (hframe : { t' with
      options := t.options
      edgeCosts := t.edgeCosts
      penalties := t.penalties
      totalPenalty := t.totalPenalty } = t') : Level n rows o t' := by
  rw [← hframe]
  exact ⟨ht.options_eq, ht.edgeCosts_eq, ht.penalties, ht.totalPenalty_eq, hfast, hthorough⟩

theorem Aligned.replace {t' : Tour Exact} (ht : Aligned n rows o t) (hfast : t'.fast.Fitted n)
    (hthorough : t'.thorough.Sized n)
    (hframe : { t' with
      options := t.options
      edgeCosts := t.edgeCosts
      costs := t.costs
      penalties := t.penalties
      totalPenalty := t.totalPenalty } = t') : Aligned n rows o t' := by
  rw [← hframe]
  exact ⟨⟨ht.options_eq, ht.edgeCosts_eq, ht.penalties, ht.totalPenalty_eq, hfast, hthorough⟩,
    ht.square, ht.costs_eq⟩

theorem Level.balanced (ht : Level n rows o t) : Balanced n t := by
  obtain ⟨π, hπ, hzero⟩ := ht.penalties
  refine ⟨hπ.size_eq, ?_, ht.totalPenalty_eq⟩
  rw [hπ, sum_number]
  exact congrArg number hzero

theorem Balanced.minEdgeValue_eq (ht : Balanced n t) (cost : Bounds) :
    t.minEdgeValue cost = .number (-cost.upper) := by
  rw [minEdgeValue, ht.totalPenalty_eq]
  change Exact.number (-(cost.upper + 0)) = _
  rw [add_zero]

theorem Aligned.isInBalance (ht : Aligned n rows o t) : isInBalance n rows t = true := by
  refine decide_eq_true ⟨ht.balanced, fun a ha b hb => ?_⟩
  rw [ht.costs_eq a ha b hb, penalisedCost, ht.edgeCosts_eq]

theorem Aligned.isNumber_cost (ht : Aligned n rows o t) {a b : ℕ} (ha : a < n) (hb : b < n) :
    (t.costs.cost a b).IsNumber := by
  obtain ⟨π, hπ, -⟩ := ht.penalties
  exact ⟨_, (ht.costs_eq a ha b hb).trans (hπ.penalisedCost_eq ha hb)⟩

/-- The costs that are computed from the penalties are in step with them. -/
theorem Level.updateCosts (ht : Level n rows o t) : Aligned n rows o t.updateCosts := by
  obtain ⟨hsquare, hcosts⟩ := costs_updateCosts ht.balanced.size_eq
  exact ⟨ht.replace ht.fast ht.thorough rfl, hsquare, hcosts⟩

/-! ### Steps -/

/-- If the degrees add up to twice the number of nodes, a step keeps the sum of the penalties. -/
theorem sum_moved {tree : OneTree Exact}
    (hdegrees : ∑ v ∈ Finset.range n, tree.degree v = 2 * n) (π : ℕ → ℚ) (step : ℚ) :
    ∑ v ∈ Finset.range n, (π v + ((tree.degree v : ℚ) - 2) * step) =
      ∑ v ∈ Finset.range n, π v := by
  have hzero : ∑ v ∈ Finset.range n, ((tree.degree v : ℚ) - 2) = 0 := by
    rw [Finset.sum_sub_distrib, ← Nat.cast_sum, hdegrees, Finset.sum_const, Finset.card_range]
    push_cast
    rw [nsmul_eq_mul, mul_comm, sub_self]
  rw [Finset.sum_add_distrib, ← Finset.sum_mul, hzero, zero_mul, add_zero]

theorem Aligned.updatePenalties (ht : Aligned n rows o t) (hstep : t.step.IsNumber)
    (hdegrees : ∀ tree, t.tree? = some tree → ∑ v ∈ Finset.range n, tree.degree v = 2 * n) :
    Aligned n rows o t.updatePenalties := by
  rw [Tour.updatePenalties]
  split
  · exact ht
  next tree htree =>
    split
    · exact ht
    · obtain ⟨π, hπ, hzero⟩ := ht.penalties
      obtain ⟨q, hq⟩ := hstep
      have hmoved := hπ.moved hq tree
      have hsum := (sum_moved (hdegrees tree htree) π q).trans hzero
      refine Level.updateCosts ⟨ht.options_eq, ht.edgeCosts_eq, ⟨_, hmoved, hsum⟩, ?_, ht.fast,
        ht.thorough⟩
      dsimp only
      rw [hmoved, sum_number]
      exact congrArg number (mul_eq_zero_of_right 2 hsum)

/-! ### Iterations -/

/-- A propagation goes on. -/
structure Climbing (n : ℕ) (rows : List (List ℤ)) (o : AscentOptions ℚ)
    (s : Posted (Tour Exact) TourDomains) : Prop where
  aligned : Aligned n rows o s.propagator
  simple : s.domains.graph.IsSimple n

/-- A propagation goes on after an iteration that answered a number. -/
structure Gauged (n : ℕ) (rows : List (List ℤ)) (o : AscentOptions ℚ) (bound : Exact)
    (s : Posted (Tour Exact) TourDomains) : Prop extends Climbing n rows o s where
  isNumber : bound.IsNumber
  degrees : ∀ tree, s.propagator.tree? = some tree →
    ∑ v ∈ Finset.range n, tree.degree v = 2 * n

/-- What is left after a failure. -/
def Halted (n : ℕ) (rows : List (List ℤ)) (o : AscentOptions ℚ) (_ : Failure)
    (s : Posted (Tour Exact) TourDomains) : Prop := Level n rows o s.propagator

theorem raiseCost_isNumber (hbound : bound.IsNumber) (s : Posted (Tour Exact) TourDomains) :
    (raiseCost bound : Run Exact Exact).wp
      (fun answer s' => answer.IsNumber ∧ s'.propagator = s.propagator ∧
        s'.domains.graph = s.domains.graph)
      (fun _ s' => s'.propagator = s.propagator) s := by
  obtain ⟨q, rfl⟩ := hbound
  obtain ⟨r, -, hsettle⟩ := settle_le s.propagator.options.integralityTolerance q
  refine Attempt.wp_mono (raiseCost_spec hsettle) ?_ fun _ _ h => h.2.1 ▸ rfl
  rintro _ s' ⟨rfl, hpropagator, hgraph, -⟩
  exact ⟨⟨r, rfl⟩, hpropagator, hgraph⟩

/-- The bound that a tree gives is a number, and its degrees add up. -/
theorem Aligned.gauges (ht : Aligned n rows o t) {tree : OneTree Exact}
    (hcomplete : tree.Complete n) (hrecorded : tree.Recorded n t.costs) :
    (tree.cost - t.totalPenalty).IsNumber ∧ ∑ v ∈ Finset.range n, tree.degree v = 2 * n := by
  constructor
  · rw [hrecorded.cost_eq, ht.totalPenalty_eq]
    refine (isNumber_sum fun x hx => ?_).sub ⟨0, rfl⟩
    obtain ⟨e, he, rfl⟩ := List.mem_map.mp hx
    obtain ⟨ha, hb, -⟩ := hrecorded.inside e he
    exact ht.isNumber_cost ha hb
  · rw [hrecorded.sum_degree, hcomplete.size_eq]

theorem fastIteration_gauges (hn : 2 ≤ n) (h : Climbing n rows o s) :
    (fastIteration : Run Exact Exact).wp (Gauged n rows o) (Halted n rows o) s := by
  rw [wp_fastIteration]
  have ht := h.aligned
  refine Attempt.wp_mono (Prim.compute_complete hn ht.fast ht.square h.simple) ?_
    fun _ _ h' => ht.toLevel.replace h'.1 ht.thorough rfl
  rintro _ p ⟨hp, hcomplete, hrecorded⟩
  obtain ⟨hnumber, hdegrees⟩ := ht.gauges hcomplete hrecorded
  refine Attempt.wp_mono (raiseCost_isNumber hnumber _) ?_ ?_
  · rintro answer ⟨t', d'⟩ ⟨hanswer, rfl, hgraph⟩
    exact ⟨⟨ht.replace hp ht.thorough rfl, hgraph ▸ h.simple⟩, hanswer,
      fun tree htree => Option.some.inj htree ▸ hdegrees⟩
  · rintro _ ⟨t', d'⟩ rfl
    exact ht.toLevel.replace hp ht.thorough rfl

theorem pruningIteration_gauges (hn : 2 ≤ n) (h : Climbing n rows o s) :
    (pruningIteration : Run Exact Exact).wp (Gauged n rows o) (Halted n rows o) s := by
  rw [wp_pruningIteration]
  have ht := h.aligned
  refine Attempt.wp_mono (Kruskal.compute_complete hn ht.thorough ht.square h.simple) ?_
    fun _ _ h' => ht.toLevel.replace ht.fast h'.1 rfl
  rintro _ k ⟨hk, hcomplete, hrecorded⟩
  obtain ⟨hnumber, hdegrees⟩ := ht.gauges hcomplete hrecorded
  refine Attempt.wp_mono (raiseCost_isNumber hnumber _) ?_ ?_
  · rintro answer ⟨t', d'⟩ ⟨hanswer, rfl, hgraph⟩
    have hsimple : d'.graph.IsSimple n := hgraph ▸ h.simple
    rw [wp_pruneGraph]
    -- pruning leaves the tree, also if it stops early
    refine Attempt.wp_mono (Kruskal.prune_keeps hk hsimple.valid _) ?_ ?_
    · rintro _ ⟨k', g⟩ ⟨hk', htree', hnarrows⟩
      refine ⟨⟨ht.replace ht.fast hk' rfl, hsimple.narrows hnarrows⟩, hanswer,
        fun tree htree => ?_⟩
      obtain rfl := htree'.symm.trans (Option.some.inj htree)
      exact hdegrees
    · rintro _ ⟨k', g⟩ ⟨hk', -⟩
      exact ht.toLevel.replace ht.fast hk' rfl
  · rintro _ ⟨t', d'⟩ rfl
    exact ht.toLevel.replace ht.fast hk rfl

theorem ascend_climbs (h : Gauged n rows o bound s) (halpha : alpha.IsNumber) :
    (ascend alpha bound).wp (fun _ s' => Climbing n rows o s') (Halted n rows o) s := by
  have ht := h.aligned
  have hstep := isNumber_nextStep ht.options_eq h.isNumber halpha s.domains.cost.upper
  rw [ascend, Attempt.wp_modify]
  generalize s.propagator.nextStep bound alpha s.domains.cost.upper = step at hstep
  have hstepped : Aligned n rows o { s.propagator with step } :=
    ht.replace ht.fast ht.thorough rfl
  exact ⟨hstepped.updatePenalties hstep h.degrees, h.simple⟩

/-! ### The ascent with an alarm -/

open Attempt (Shared)

/-- An ascent in which the penalties stay balanced and the costs in step with them. -/
def balancing (n : ℕ) (rows : List (List ℤ)) (o : AscentOptions ℚ) : Stages Exact :=
  { before := Climbing n rows o
    answered := Gauged n rows o
    stepped := Climbing n rows o
    failed := Halted n rows o
    factor := IsNumber }

theorem linked_balancing : (balancing n rows o).Linked := by
  refine ⟨fun halpha h => ascend_climbs h halpha, fun h => h.toClimbing, fun h => h, fun h => ?_,
    fun h => ?_, IsNumber.mul, fun hbeta => hbeta.div (isNumber_ofInt 2)⟩
  · exact ⟨h.aligned.replace h.aligned.fast h.aligned.thorough rfl, h.simple⟩
  · rw [h.aligned.options_eq]
    exact ⟨⟨_, rfl⟩, _, rfl⟩

/-- In balance, the alarm before an iteration does not sound. -/
theorem links_watched (alarm : Failure) {iteration : Run Exact Exact}
    (hiteration : ∀ s, Climbing n rows o s →
      iteration.wp (Gauged n rows o) (Halted n rows o) s) :
    (balancing n rows o).Links (watched (isInBalance n rows) alarm iteration) iteration := by
  intro s h
  have hsame := Attempt.alike_self (hiteration s h)
  rw [Attempt.alike] at hsame ⊢
  rwa [watched_eq h.aligned.isInBalance alarm iteration]

/-- From a state between two propagations, the propagation with the alarm is the propagation, and
leads to such a state. -/
theorem propagateBy_alike (hn : 2 ≤ n) (alarm : Failure) {d : TourDomains}
    (ht : Level n rows o t) (hd : d.graph.IsSimple n) :
    (propagateBy (watched (isInBalance n rows) alarm fastIteration)
        (watched (isInBalance n rows) alarm pruningIteration)).alike
      (propagateBy fastIteration pruningIteration)
      (fun _ => Shared fun s => Level n rows o s.propagator)
      (fun failure => Shared (Halted n rows o failure)) ⟨t, d⟩ ⟨t, d⟩ := by
  apply Attempt.alike_get_bind
  refine Attempt.alike_ite Iff.rfl (fun _ => Attempt.alike_pure ⟨rfl, ht⟩) fun _ => ?_
  have hlisted : Level n rows o { t with
      numPropagations := t.numPropagations + 1
      mandatoryEdges := listMandatoryEdges d.graph } := ht.replace ht.fast ht.thorough rfl
  have hstarted : Climbing n rows o ⟨t.started d.graph, d⟩ := ⟨hlisted.updateCosts, hd⟩
  have hstep : ∀ s s', Shared (Climbing n rows o) s s' →
      (relaxOnceBy (watched (isInBalance n rows) alarm fastIteration)
          (watched (isInBalance n rows) alarm pruningIteration)).alike
        (relaxOnceBy fastIteration pruningIteration) (fun _ => Shared (Climbing n rows o))
        (fun failure => Shared (Halted n rows o failure)) s s' := by
    rintro s _ ⟨rfl, h⟩
    exact relaxOnceBy_alike linked_balancing
      (links_watched alarm fun _ h => fastIteration_gauges hn h)
      (links_watched alarm fun _ h => pruningIteration_gauges hn h) h
  have hloop := Attempt.alike_repeatWhile hstep ((d.cost.upper - d.cost.lower).toNat + 1)
    ⟨rfl, hstarted⟩
  exact Attempt.alike_mono hloop (fun _ _ _ h => ⟨h.1, h.2.aligned.toLevel⟩) fun _ _ _ h => h

/-- The alarm does not sound, and the propagation leads to a state between two propagations. -/
theorem propagateBy_quiet (hn : 3 ≤ n) (alarm : Failure) {d : TourDomains}
    (ht : Level n rows o t) (hd : d.graph.IsSimple n) :
    propagateBy (watched (isInBalance n rows) alarm fastIteration)
        (watched (isInBalance n rows) alarm pruningIteration) ⟨t, d⟩ =
      propagateFromScratch ⟨t, d⟩ ∧
    (propagateFromScratch : Run Exact Unit).wp (fun _ s => Level n rows o s.propagator)
      (Halted n rows o) ⟨t, d⟩ := by
  obtain ⟨heq, hwp⟩ := Attempt.eq_and_wp_of_alike (propagateBy_alike (by omega) alarm ht hd)
  rw [propagateBy_iterations] at heq
  rw [Attempt.wp, heq] at hwp
  exact ⟨heq, hwp⟩

/-! ### The course of a search -/

theorem level_make {d : TourDomains} (hd : d.WellPosed n)
    (hmake : Tour.make rows o.exact d = .ok t) : Level n rows o t := by
  obtain ⟨-, rfl⟩ := of_make hd.order_eq hmake
  refine ⟨rfl, rfl, ⟨fun _ => 0, ?_, Finset.sum_const_zero⟩, rfl, Prim.fitted_make n,
    Kruskal.sized_make n⟩
  simp [HasPenalties]

theorem Course.level {last : Option Failure} (ht : Course n rows o.exact last t) :
    Level n rows o t := by
  induction ht with
  | make hd hmake => exact level_make hd hmake
  | succeed hcourse hd hrun ih =>
      have hwp := (propagateBy_quiet hcourse.standing.three_le .wipeout ih hd.simple).2
      exact (Attempt.of_wp_ok hwp hrun :)
  | fail hcourse hd hrun ih =>
      have hwp := (propagateBy_quiet hcourse.standing.three_le .wipeout ih hd.simple).2
      exact (Attempt.of_wp_error hwp hrun :)
  | onSolution _ ih => exact ih.replace ih.fast ih.thorough rfl

/-- In every state of a search the penalties add up to zero, so no edge of a tour costs less than
the negated upper bound; and in a further propagation no alarm sounds at the call of a finder, where
the penalties are balanced and the costs in step with them. -/
theorem Course.stays_balanced {last : Option Failure} (ht : Course n rows o.exact last t) :
    Balanced n t ∧ (∀ cost : Bounds, t.minEdgeValue cost = .number (-cost.upper)) ∧
      ∀ d : TourDomains, d.WellPosed n → ∀ alarm,
        propagateBy (watched (isInBalance n rows) alarm fastIteration)
          (watched (isInBalance n rows) alarm pruningIteration) ⟨t, d⟩ =
        propagateFromScratch ⟨t, d⟩ := by
  have hlevel := ht.level
  exact ⟨hlevel.balanced, hlevel.balanced.minEdgeValue_eq, fun d hd alarm =>
    (propagateBy_quiet ht.standing.three_le alarm hlevel hd.simple).1⟩

/-- Four nodes with costs that differ in both directions; an alarm that always sounds is heard at
once. -/
theorem Course.stays_balanced_four :
    let rows : List (List ℤ) := [[0, 1, 2, 3], [4, 0, 5, 6], [7, 8, 0, 9], [3, 2, 1, 0]]
    let d := fourWithout []
    ∃ t, Course 4 rows AscentOptions.usual.exact none t ∧ d.WellPosed 4 ∧ Balanced 4 t ∧
      t.minEdgeValue d.cost = .number (-100) ∧ ∀ alarm,
        propagateBy (watched (isInBalance 4 rows) alarm fastIteration)
            (watched (isInBalance 4 rows) alarm pruningIteration) ⟨t, d⟩ =
          propagateFromScratch ⟨t, d⟩ ∧
        ∃ s, propagateBy (watched (fun _ => false) alarm fastIteration)
          (watched (fun _ => false) alarm pruningIteration) ⟨t, d⟩ = .error alarm s := by
  intro rows d
  have hd : d.WellPosed 4 := wellPosed_four
  obtain ⟨t, hmake⟩ : ∃ t, Tour.make rows AscentOptions.usual.exact d = .ok t := ⟨_, rfl⟩
  have ht : Course 4 rows AscentOptions.usual.exact none t := .make hd hmake
  obtain ⟨hbalanced, hmin, hquiet⟩ := ht.stays_balanced
  have hactive : t.isWaiting ≠ true := by
    rw [isWaiting, ht.level.options_eq]
    simp [AscentOptions.exact, AscentOptions.usual]
  refine ⟨t, ht, hd, hbalanced, hmin d.cost, fun alarm => ⟨hquiet d hd alarm, ?_⟩⟩
  exact propagateBy_never hactive alarm d

end Tour

end GraphInterval
