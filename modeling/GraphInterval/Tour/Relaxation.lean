import GraphInterval.Tour.Basic

/-!
# Relaxing a tour

A relaxation alternates batches of fast iterations with pruning iterations.
Every iteration computes a minimum one-tree under the penalised costs, raises
the lower bound of the cost, and then moves the penalty of every node in the
direction in which its degree in the one-tree differs from two.  The penalties
persist, so that a later relaxation starts from them.
-/

namespace GraphInterval

namespace Tour

variable {α : Type} [Scalar α]

abbrev Run (α : Type) := Attempt (Posted (Tour α) TourDomains)

/-- The penalised cost of an edge. -/
def penalisedCost (t : Tour α) (a b : Nat) : α :=
  let penalty node := t.penalties.getD node (Scalar.ofInt 0)
  Scalar.ofInt (t.edgeCosts.entry a b 0) + penalty a + penalty b

/-- Computes the costs from the penalties. -/
def updateCosts (t : Tour α) : Tour α :=
  { t with costs := Table.ofFn t.penalties.size t.penalisedCost }

/-- The mandatory edges, from the smaller to the larger endpoint. -/
def listMandatoryEdges (g : GraphVar) : List Edge :=
  (List.range g.order).flatMap fun a =>
    ((g.lower.successors a).toList.filter fun b => decide (a < b)).map (a, ·)

/-- Rounds a bound down that exceeds an integer by less than the tolerance. -/
def settle (tolerance bound : α) : α :=
  if bound - Scalar.floor bound < tolerance then Scalar.floor bound else bound

/-- Raises the lower bound of the cost to a bound; answers the bound after rounding. -/
def raiseCost (bound : α) : Run α α := do
  let bound := settle (← get).propagator.options.integralityTolerance bound
  let _ ← Posted.onDomains
    (TourDomains.onCost (Bounds.raiseLower (Scalar.toInt32 (Scalar.ceil bound))))
  return bound

/-- Computes a one-tree with a finder that is part of the propagator. -/
def computeWith {φ : Type} (part : Tour α → φ) (replace : Tour α → φ → Tour α)
    (compute : Table α → GraphVar → Attempt φ Unit) : Run α Unit := do
  let ⟨t, d⟩ ← get
  (compute t.costs d.graph).within (part ·.propagator)
    fun s finder => { s with propagator := replace s.propagator finder }

/-- Bounds the cost with the fast finder; answers the bound. -/
def fastIteration : Run α α := do
  Posted.update fun t => { t with numFastIterations := t.numFastIterations + 1 }
  computeWith Tour.fast (fun t fast => { t with fast }) Prim.compute
  Posted.update fun t => { t with support := .fast }
  let t := (← get).propagator
  raiseCost (t.fast.bound - t.totalPenalty)

/-- The bound above which an edge is pruned, as a bound on penalised costs. -/
def pruningBudget (t : Tour α) (cost : Bounds) : α :=
  Scalar.ofInt cost.upper + t.totalPenalty + t.options.pruningEpsilon

/-- Prunes the graph with the thorough finder. -/
def pruneGraph (budget : α) : Run α Unit := do
  let pruned ← (Kruskal.prune budget).within
    (fun s => { propagator := s.propagator.thorough, domains := s.domains.graph })
    (fun s after =>
      { propagator := { s.propagator with thorough := after.propagator }
        domains := { s.domains with graph := after.domains } })
  Posted.update fun t =>
    { t with
      numEdgesRemoved := t.numEdgesRemoved + pruned.removed
      numEdgesEnforced := t.numEdgesEnforced + pruned.enforced }

/-- Bounds the cost with the thorough finder and prunes the graph; answers the bound. -/
def pruningIteration : Run α α := do
  Posted.update fun t => { t with numPruningIterations := t.numPruningIterations + 1 }
  computeWith Tour.thorough (fun t thorough => { t with thorough }) Kruskal.compute
  Posted.update fun t => { t with support := .thorough }
  let t := (← get).propagator
  let bound ← raiseCost (t.thorough.bound - t.totalPenalty)
  let ⟨t, d⟩ ← get
  pruneGraph (t.pruningBudget d.cost)
  return bound

/-- The square of the distance between the degree of a node and two. -/
def squaredViolation (tree : OneTree α) (node : Nat) : α :=
  let violation := Scalar.ofInt 2 - Scalar.ofInt (tree.degree node)
  violation * violation

/-- The step towards the upper bound of the cost; it is zero if the one-tree is a tour. -/
def nextStep (t : Tour α) (bound alpha : α) (upper : Int) : α :=
  let upper := Scalar.ofInt upper
  let target := if upper < bound then bound + t.options.stagnationOffset else upper
  match t.tree? with
  | none => Scalar.ofInt 0
  | some tree =>
      let violations := Scalar.sum ((List.range tree.order).map (squaredViolation tree))
      if violations == Scalar.ofInt 0 then Scalar.ofInt 0
      else alpha * (target - bound) / violations

/-- The penalties after a step; the penalty of a node grows with its degree. -/
def movedPenalties (t : Tour α) (tree : OneTree α) : Array α :=
  t.penalties.mapIdx fun node penalty =>
    penalty + (Scalar.ofInt (tree.degree node) - Scalar.ofInt 2) * t.step

/-- The number of penalties so large that sums of them may leave the range of the arithmetic. -/
def countExtreme (penalties : Array α) : Nat :=
  let limit : α := Scalar.greatest / Scalar.ofInt ((penalties.size : Int) - 1)
  penalties.toList.countP fun penalty => decide (limit < Scalar.magnitude penalty)

/-- Moves the penalties by the step and adjusts the costs. -/
def updatePenalties (t : Tour α) : Tour α :=
  match t.tree? with
  | none => t
  | some tree =>
      if t.step == Scalar.ofInt 0 then t
      else
        let penalties := t.movedPenalties tree
        updateCosts
          { t with
            penalties
            totalPenalty := Scalar.ofInt 2 * Scalar.sum penalties.toList
            numExtremePenalties := t.numExtremePenalties + countExtreme penalties }

/-- Takes a step after an iteration that answered a bound. -/
def ascend (alpha bound : α) : Run α Unit :=
  modify fun s =>
    let step := s.propagator.nextStep bound alpha s.domains.cost.upper
    { s with propagator := { s.propagator with step }.updatePenalties }

/-- A fast iteration and a step. -/
def sprint (alpha : α) : Run α Unit := do
  ascend alpha (← fastIteration)

/-- Repeats a computation a given number of times. -/
def times : Nat → Run α Unit → Run α Unit
  | 0, _ => return ()
  | count + 1, action => do
      action
      times count action

/-- Batches of fast iterations, each of them followed by a pruning iteration. -/
def batches : Nat → α → α → Run α Unit
  | 0, _, _ => return ()
  | count + 1, alpha, beta => do
      times (← get).propagator.options.numSprints (sprint alpha)
      ascend alpha (← pruningIteration)
      batches count (alpha * beta) (beta / Scalar.ofInt 2)

/-- One ascent from the current penalties. -/
def relax : Run α Unit := do
  Posted.update fun t => { t with numRelaxations := t.numRelaxations + 1 }
  let _ ← pruningIteration
  let options := (← get).propagator.options
  batches options.numOuterIterations options.initialAlpha options.initialBeta

/-- One ascent; answers whether it raised the lower bound of the cost. -/
def relaxOnce : Run α Bool := do
  let lower := (← get).domains.cost.lower
  relax
  return decide (lower < (← get).domains.cost.lower)

/-- Relaxes until the lower bound of the cost stays.  Every further ascent raises it by at least
one, so its distance from the upper bound limits their number. -/
def propagateFromScratch : Run α Unit := do
  if (← get).propagator.isWaiting then return ()
  Posted.update fun t => { t with numPropagations := t.numPropagations + 1 }
  modify fun s =>
    { s with propagator :=
      { s.propagator with mandatoryEdges := listMandatoryEdges s.domains.graph }.updateCosts }
  let cost := (← get).domains.cost
  repeatWhile relaxOnce ((cost.upper - cost.lower).toNat + 1)

end Tour

end GraphInterval
