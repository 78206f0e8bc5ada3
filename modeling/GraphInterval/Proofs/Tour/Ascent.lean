import GraphInterval.Proofs.Lockstep
import GraphInterval.Tour.Relaxation

/-!
# The shape of the ascent

What a run of an iteration comes down to is said once here, in terms of its
finder and of raising the cost.

An ascent is an arrangement of fast iterations, pruning iterations and steps.
What holds before every iteration and is brought back by the step after it
holds throughout, so properties of an ascent come from properties of the two
iterations and of a step.  The arrangement does not depend on what the
iterations are: iterations that run alike make ascents that run alike.
-/

namespace GraphInterval

open Attempt (Shared)

namespace Tour

variable {α : Type} [Scalar α]

/-! ### Raising the lower bound -/

/-- The rounded bound is answered, and its ceiling is put on the cost or exceeds the upper bound;
nothing else changes. -/
theorem raiseCost_spec {bound rounded : α} {s : Posted (Tour α) TourDomains}
    (hrounded : settle s.propagator.options.integralityTolerance bound = rounded) :
    (raiseCost bound : Run α α).wp
      (fun answer s' => answer = rounded ∧ s'.propagator = s.propagator ∧
        s'.domains.graph = s.domains.graph ∧ s'.domains.cost.upper = s.domains.cost.upper ∧
        s'.domains.cost.lower =
          max s.domains.cost.lower (Scalar.toInt32 (Scalar.ceil rounded)) ∧
        Scalar.toInt32 (Scalar.ceil rounded) ≤ s.domains.cost.upper)
      (fun failure s' => failure = .wipeout ∧ s' = s ∧
        s.domains.cost.upper < Scalar.toInt32 (Scalar.ceil rounded)) s := by
  simp only [raiseCost, Posted.onDomains, TourDomains.onCost, Attempt.wp_bind, Attempt.wp_get,
    Attempt.wp_within, Attempt.wp_pure, hrounded]
  rw [Attempt.wp, Bounds.raiseLower]
  split_ifs with hwipeout hlow
  · exact ⟨rfl, rfl, hwipeout⟩
  · exact ⟨trivial, trivial, trivial, rfl, (max_eq_left hlow).symm, le_of_not_gt hwipeout⟩
  · have hmax := (max_eq_right (le_of_not_ge hlow)).symm
    exact ⟨trivial, trivial, trivial, rfl, hmax, le_of_not_gt hwipeout⟩

/-! ### The two iterations -/

section Iterations

variable {s : Posted (Tour α) TourDomains} {Q : α → Posted (Tour α) TourDomains → Prop}
variable {E : Failure → Posted (Tour α) TourDomains → Prop}

/-- A fast iteration runs the fast finder and puts its bound on the cost. -/
theorem wp_fastIteration : (fastIteration : Run α α).wp Q E s ↔
    (Prim.compute s.propagator.costs s.domains.graph).wp
      (fun _ fast => (raiseCost (fast.bound - s.propagator.totalPenalty)).wp Q E
        { s with propagator :=
          { s.propagator with
            numFastIterations := s.propagator.numFastIterations + 1, fast, support := .fast } })
      (fun failure fast => E failure
        { s with propagator :=
          { s.propagator with numFastIterations := s.propagator.numFastIterations + 1, fast } })
      s.propagator.fast := by
  simp only [fastIteration, computeWith, Posted.update, Attempt.wp_bind, Attempt.wp_modify,
    Attempt.wp_get, Attempt.wp_within]

/-- Pruning changes the thorough finder, the graph and the counters. -/
theorem wp_pruneGraph {budget : α} {Q : Unit → Posted (Tour α) TourDomains → Prop} :
    (pruneGraph budget).wp Q E s ↔
      (Kruskal.prune budget).wp
        (fun pruned after => Q ()
          { propagator :=
              { s.propagator with
                thorough := after.propagator
                numEdgesRemoved := s.propagator.numEdgesRemoved + pruned.removed
                numEdgesEnforced := s.propagator.numEdgesEnforced + pruned.enforced }
            domains := { s.domains with graph := after.domains } })
        (fun failure after => E failure
          { propagator := { s.propagator with thorough := after.propagator }
            domains := { s.domains with graph := after.domains } })
        ⟨s.propagator.thorough, s.domains.graph⟩ := by
  simp only [pruneGraph, Posted.update, Attempt.wp_bind, Attempt.wp_within, Attempt.wp_modify]

/-- A pruning iteration runs the thorough finder, puts its bound on the cost and prunes. -/
theorem wp_pruningIteration : (pruningIteration : Run α α).wp Q E s ↔
    (Kruskal.compute s.propagator.costs s.domains.graph).wp
      (fun _ thorough => (raiseCost (thorough.bound - s.propagator.totalPenalty)).wp
        (fun bound s' => (pruneGraph (s'.propagator.pruningBudget s'.domains.cost)).wp
          (fun _ => Q bound) E s') E
        { s with propagator :=
          { s.propagator with
            numPruningIterations := s.propagator.numPruningIterations + 1, thorough
            support := .thorough } })
      (fun failure thorough => E failure
        { s with propagator :=
          { s.propagator with
            numPruningIterations := s.propagator.numPruningIterations + 1, thorough } })
      s.propagator.thorough := by
  simp only [pruningIteration, computeWith, Posted.update, Attempt.wp_bind, Attempt.wp_modify,
    Attempt.wp_get, Attempt.wp_within, Attempt.wp_pure]

end Iterations

/-! ### Other iterations -/

/-- A fast iteration and a step. -/
def sprintBy (fast : Run α α) (alpha : α) : Run α Unit := do
  ascend alpha (← fast)

/-- Batches of fast iterations, each of them followed by a pruning iteration. -/
def batchesBy (fast pruning : Run α α) : Nat → α → α → Run α Unit
  | 0, _, _ => return ()
  | count + 1, alpha, beta => do
      times (← get).propagator.options.numSprints (sprintBy fast alpha)
      ascend alpha (← pruning)
      batchesBy fast pruning count (alpha * beta) (beta / Scalar.ofInt 2)

/-- One ascent from the current penalties. -/
def relaxBy (fast pruning : Run α α) : Run α Unit := do
  Posted.update fun t => { t with numRelaxations := t.numRelaxations + 1 }
  let _ ← pruning
  let options := (← get).propagator.options
  batchesBy fast pruning options.numOuterIterations options.initialAlpha options.initialBeta

/-- One ascent; answers whether it raised the lower bound of the cost. -/
def relaxOnceBy (fast pruning : Run α α) : Run α Bool := do
  let lower := (← get).domains.cost.lower
  relaxBy fast pruning
  return decide (lower < (← get).domains.cost.lower)

/-- The propagation with other iterations. -/
def propagateBy (fast pruning : Run α α) : Run α Unit := do
  if (← get).propagator.isWaiting then return ()
  Posted.update fun t => { t with numPropagations := t.numPropagations + 1 }
  modify fun s =>
    { s with propagator :=
      { s.propagator with mandatoryEdges := listMandatoryEdges s.domains.graph }.updateCosts }
  let cost := (← get).domains.cost
  repeatWhile (relaxOnceBy fast pruning) ((cost.upper - cost.lower).toNat + 1)

theorem relaxOnceBy_iterations :
    (relaxOnceBy fastIteration pruningIteration : Run α Bool) = relaxOnce := by
  have hbatches : ∀ count (alpha beta : α),
      batchesBy fastIteration pruningIteration count alpha beta = batches count alpha beta := by
    intro count
    induction count with
    | zero => exact fun _ _ => rfl
    | succ count ih =>
        intro alpha beta
        simp only [batchesBy, batches, ih]
        rfl
  simp only [relaxOnceBy, relaxBy, hbatches]
  rfl

/-- With its own iterations, this is the propagation. -/
theorem propagateBy_iterations :
    (propagateBy fastIteration pruningIteration : Run α Unit) = propagateFromScratch := by
  simp only [propagateBy, relaxOnceBy_iterations]
  rfl

/-! ### What an ascent keeps -/

/-- What is known of the states of an ascent, and of the factors of its steps. -/
structure Stages (α : Type) where
  /-- Before an iteration. -/
  before : Posted (Tour α) TourDomains → Prop
  /-- After an iteration that answered a bound. -/
  answered : α → Posted (Tour α) TourDomains → Prop
  /-- After a step. -/
  stepped : Posted (Tour α) TourDomains → Prop
  failed : Failure → Posted (Tour α) TourDomains → Prop
  factor : α → Prop

variable {S : Stages α} {fast fast' pruning pruning' : Run α α} {alpha beta : α}
variable {s : Posted (Tour α) TourDomains}

/-- Everything but the iterations leads from one stage to the next. -/
structure Stages.Linked (S : Stages α) : Prop where
  step : ∀ {alpha bound s}, S.factor alpha → S.answered bound s →
    (ascend alpha bound).wp (fun _ => S.stepped) S.failed s
  skip : ∀ {bound s}, S.answered bound s → S.stepped s
  again : ∀ {s}, S.stepped s → S.before s
  count : ∀ {s : Posted (Tour α) TourDomains}, S.before s → S.before { s with propagator :=
    { s.propagator with numRelaxations := s.propagator.numRelaxations + 1 } }
  initial : ∀ {s}, S.stepped s →
    S.factor s.propagator.options.initialAlpha ∧ S.factor s.propagator.options.initialBeta
  shrink : ∀ {alpha beta}, S.factor alpha → S.factor beta → S.factor (alpha * beta)
  halve : ∀ {beta}, S.factor beta → S.factor (beta / Scalar.ofInt 2)

/-- From a state before an iteration, two iterations run alike, to a state after one. -/
def Stages.Links (S : Stages α) (iteration iteration' : Run α α) : Prop :=
  ∀ s, S.before s → iteration.alike iteration' (fun bound => Shared (S.answered bound))
    (fun failure => Shared (S.failed failure)) s s

/-- Two ascents run alike, to a state after a step. -/
def Stages.Reaches {β : Type} (S : Stages α) (x y : Run α β) (s : Posted (Tour α) TourDomains) :
    Prop :=
  x.alike y (fun _ => Shared S.stepped) (fun failure => Shared (S.failed failure)) s s

theorem sprintBy_alike (hS : S.Linked) (hfast : S.Links fast fast') (halpha : S.factor alpha)
    (h : S.before s) : S.Reaches (sprintBy fast alpha) (sprintBy fast' alpha) s := by
  apply Attempt.alike_bind
  refine Attempt.alike_mono (hfast s h) ?_ fun _ _ _ h => h
  rintro bound s' _ ⟨rfl, h'⟩
  exact Attempt.alike_self (hS.step halpha h')

theorem times_alike (hS : S.Linked) (hfast : S.Links fast fast') (halpha : S.factor alpha)
    (count : ℕ) (h : S.stepped s) :
    S.Reaches (times count (sprintBy fast alpha)) (times count (sprintBy fast' alpha)) s := by
  induction count generalizing s with
  | zero => exact Attempt.alike_pure ⟨rfl, h⟩
  | succ count ih =>
      refine Attempt.alike_seq (sprintBy_alike hS hfast halpha (hS.again h)) ?_
      rintro _ s' _ ⟨rfl, h'⟩
      exact ih h'

theorem batchesBy_alike (hS : S.Linked) (hfast : S.Links fast fast')
    (hpruning : S.Links pruning pruning') (count : ℕ) (halpha : S.factor alpha)
    (hbeta : S.factor beta) (h : S.stepped s) :
    S.Reaches (batchesBy fast pruning count alpha beta) (batchesBy fast' pruning' count alpha beta)
      s := by
  induction count generalizing s alpha beta with
  | zero => exact Attempt.alike_pure ⟨rfl, h⟩
  | succ count ih =>
      apply Attempt.alike_get_bind
      refine Attempt.alike_seq (times_alike hS hfast halpha _ h) ?_
      rintro _ s₁ _ ⟨rfl, h₁⟩
      apply Attempt.alike_bind
      refine Attempt.alike_mono (hpruning s₁ (hS.again h₁)) ?_ fun _ _ _ h => h
      rintro bound s₂ _ ⟨rfl, h₂⟩
      refine Attempt.alike_seq (Attempt.alike_self (hS.step halpha h₂)) ?_
      rintro _ s₃ _ ⟨rfl, h₃⟩
      exact ih (hS.shrink halpha hbeta) (hS.halve hbeta) h₃

/-- Every relaxation starts with a pruning iteration without a step. -/
theorem relaxBy_alike (hS : S.Linked) (hfast : S.Links fast fast')
    (hpruning : S.Links pruning pruning') (h : S.before s) :
    S.Reaches (relaxBy fast pruning) (relaxBy fast' pruning') s := by
  refine Attempt.alike_seq (R := Shared S.before) (Attempt.alike_modify ⟨rfl, hS.count h⟩) ?_
  rintro _ s₁ _ ⟨rfl, h₁⟩
  apply Attempt.alike_bind
  refine Attempt.alike_mono (hpruning s₁ h₁) ?_ fun _ _ _ h => h
  rintro _ s₂ _ ⟨rfl, h₂⟩
  obtain ⟨halpha, hbeta⟩ := hS.initial (hS.skip h₂)
  exact Attempt.alike_get_bind (batchesBy_alike hS hfast hpruning _ halpha hbeta (hS.skip h₂))

theorem relaxOnceBy_alike (hS : S.Linked) (hfast : S.Links fast fast')
    (hpruning : S.Links pruning pruning') (h : S.before s) :
    S.Reaches (relaxOnceBy fast pruning) (relaxOnceBy fast' pruning') s := by
  apply Attempt.alike_get_bind
  refine Attempt.alike_seq (relaxBy_alike hS hfast hpruning h) ?_
  rintro _ s' _ ⟨rfl, h'⟩
  exact Attempt.alike_get_bind (Attempt.alike_pure ⟨rfl, h'⟩)

/-- What the iterations and the steps keep, an ascent keeps. -/
theorem Stages.Linked.relaxOnce_wp (hS : S.Linked)
    (hfast : ∀ s, S.before s → fastIteration.wp S.answered S.failed s)
    (hpruning : ∀ s, S.before s → pruningIteration.wp S.answered S.failed s) (h : S.before s) :
    (relaxOnce : Run α Bool).wp (fun _ => S.stepped) S.failed s := by
  rw [← relaxOnceBy_iterations]
  exact (Attempt.eq_and_wp_of_alike (relaxOnceBy_alike hS
    (fun s h => Attempt.alike_self (hfast s h)) (fun s h => Attempt.alike_self (hpruning s h))
    h)).2

end Tour

end GraphInterval
