import GraphInterval.Domain.Bounds
import GraphInterval.OneTree.Prim
import GraphInterval.OneTree.Sensitivity

/-!
# Tours

The constraint that an undirected graph is a Hamiltonian cycle over all of its
nodes and that the costs of its edges add up to a cost variable.  The bound on
the cost comes from one-trees: every tour is a one-tree in which all nodes
have two edges.  A penalty on every node, charged once for each of its edges,
changes the cost of all tours by the same amount, twice the sum of the
penalties, and so steers the minimum one-tree towards a tour.

This module holds the state of the propagator and what it tells to others.
-/

namespace GraphInterval

/-- A graph and the cost of the tour in it. -/
structure TourDomains where
  graph : GraphVar
  cost : Bounds
  deriving Inhabited

namespace TourDomains

/-- Makes a checkpoint in both domains. -/
def mark (d : TourDomains) : TourDomains := { graph := d.graph.mark, cost := d.cost.mark }

/-- Runs a computation on the graph. -/
def onGraph {β : Type} (attempt : Attempt GraphVar β) : Attempt TourDomains β :=
  attempt.within TourDomains.graph fun d graph => { d with graph }

/-- Runs a computation on the cost. -/
def onCost {β : Type} (attempt : Attempt Bounds β) : Attempt TourDomains β :=
  attempt.within TourDomains.cost fun d cost => { d with cost }

/-- Restores both domains. -/
def synchronise (target : Nat) : Attempt TourDomains Unit := do
  onGraph (GraphVar.synchronise target)
  onCost (Bounds.synchronise target)

end TourDomains

/-- The parameters of the ascent. -/
structure AscentOptions (α : Type) where
  /-- Nothing is propagated before a first solution is reported. -/
  waitForFirstSolution : Bool
  /-- The number of fast iterations between two pruning iterations. -/
  numSprints : Nat
  /-- The number of batches of fast iterations in a relaxation. -/
  numOuterIterations : Nat
  /-- The factor of the first steps. -/
  initialAlpha : α
  /-- The factor by which `alpha` shrinks after the first batch; it is halved after each batch. -/
  initialBeta : α
  /-- A bound whose fractional part is smaller is rounded down. -/
  integralityTolerance : α
  /-- The slack of the pruning budget. -/
  pruningEpsilon : α
  /-- How far the target of a step lies above a bound that has passed the upper bound. -/
  stagnationOffset : α
  deriving Inhabited

def AscentOptions.standard {α : Type} [Scalar α] : AscentOptions α :=
  { waitForFirstSolution := false
    numSprints := 30
    numOuterIterations := 5
    initialAlpha := 2.0
    initialBeta := 0.5
    integralityTolerance := 0.001
    pruningEpsilon := 0.001
    stagnationOffset := 0.1 }

/-- The finder that computed the last one-tree. -/
inductive Support where
  | none
  | fast
  | thorough
  deriving DecidableEq, Repr, Inhabited

structure Tour (α : Type) where
  options : AscentOptions α
  /-- The costs of the edges. -/
  edgeCosts : Table Int
  /-- The costs of the edges plus the penalties of both endpoints. -/
  costs : Table α
  penalties : Array α
  /-- Twice the sum of the penalties. -/
  totalPenalty : α
  /-- The step of the last change to the penalties. -/
  step : α
  /-- The mandatory edges at the start of the last propagation. -/
  mandatoryEdges : List Edge
  solutionFound : Bool
  fast : Prim α
  thorough : Kruskal α
  support : Support
  numPropagations : Nat := 0
  numRelaxations : Nat := 0
  numFastIterations : Nat := 0
  numPruningIterations : Nat := 0
  numEdgesRemoved : Nat := 0
  numEdgesEnforced : Nat := 0
  numExtremePenalties : Nat := 0
  deriving Inhabited

namespace Tour

variable {α : Type} [Scalar α]

def name : String := "LagrangianOneTree"

def priority : Priority := .veryLow

def counters (t : Tour α) : Counters :=
  [("num_propagations", t.numPropagations),
    ("num_relaxations", t.numRelaxations),
    ("num_fast_iterations", t.numFastIterations),
    ("num_pruning_iterations", t.numPruningIterations),
    ("num_edges_removed", t.numEdgesRemoved),
    ("num_edges_enforced", t.numEdgesEnforced),
    ("num_extreme_penalties", t.numExtremePenalties)]

/-- The first row of a matrix that does not have the expected length, and its length. -/
def oddRow? (expected : Nat) (rows : List (List Int)) : Option (Nat × Nat) :=
  (rows.zipIdx.find? fun (row, _) => row.length != expected).map fun (row, i) => (i, row.length)

/-- Posts the constraint on an undirected graph of at least three nodes with a square matrix of
costs. -/
def make (rows : List (List Int)) (options : AscentOptions α) (d : TourDomains) :
    Except SetupError (Tour α) :=
  let order := d.graph.order
  if d.graph.directed then .error .directedTour
  else if order < 3 then .error (.tooFewNodes order)
  else if rows.length ≠ order then .error (.mismatchedNodeCount order rows.length)
  else
    match oddRow? order rows with
    | some (row, length) => .error (.nonSquareCosts row order length)
    | none =>
        .ok
          { options
            edgeCosts := Table.ofRows rows
            costs := Table.replicate order (Scalar.ofInt 0)
            penalties := Array.replicate order (Scalar.ofInt 0)
            totalPenalty := Scalar.ofInt 0
            step := Scalar.ofInt 0
            mandatoryEdges := []
            solutionFound := false
            fast := Prim.make order
            thorough := Kruskal.make order
            support := .none }

/-- Reports a first solution. -/
def onSolution (t : Tour α) : Tour α := { t with solutionFound := true }

/-- Whether a first solution is waited for. -/
def isWaiting (t : Tour α) : Bool := t.options.waitForFirstSolution && !t.solutionFound

/-- Only the events of edges are of interest. -/
def notify (t : Tour α) (event : Event) : Decision :=
  .enqueueIf (!t.isWaiting && EventKind.edgeEvents.contains event.kind)

/-- Only a smaller upper bound on the cost tightens the pruning. -/
def notifyCost (t : Tour α) (event : BoundEvent) : Decision :=
  .enqueueIf (!t.isWaiting && (event == .assign || event == .upperBound))

/-- The propagator only prunes, so it never denies the constraint. -/
def entailment (_ : Tour α) (_ : TourDomains) : Entailment := .satisfied

/-- The last one-tree. -/
def tree? (t : Tour α) : Option (OneTree α) :=
  match t.support with
  | .none => none
  | .fast => some t.fast.tree
  | .thorough => some t.thorough.tree

/-- Whether an edge belongs to the last one-tree; before there is one, every edge does. -/
def contains (t : Tour α) (a b : Nat) : Bool := t.tree?.all (·.contains a b)

/-- The mandatory edges at the start of the last propagation by increasing endpoints. -/
def sortedMandatoryEdges (t : Tour α) : List Edge :=
  t.mandatoryEdges.mergeSort fun e f => e.1 < f.1 || (e.1 == f.1 && e.2 ≤ f.2)

/-- By how much the bound rose at the last pruning if an edge were included or excluded. -/
def marginal (t : Tour α) (a b : Nat) : α := t.thorough.marginals.entry a b Ranked.top

/-- Whether every node of an edge has an entry in the tables. -/
def knowsEdge (t : Tour α) (a b : Nat) : Bool :=
  decide (a < t.penalties.size) && decide (b < t.penalties.size)

/-- A lower bound on the penalised cost of an edge of a tour within the upper bound of the cost. -/
def minEdgeValue (t : Tour α) (cost : Bounds) : α := -(Scalar.ofInt cost.upper + t.totalPenalty)

end Tour

end GraphInterval
