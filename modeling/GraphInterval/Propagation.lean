import GraphInterval.GraphVar.Basic

/-!
# Propagators

A propagator narrows the domains of one constraint, or reports that they admit
no solution.  This module holds what all propagators answer with: whether an
event calls for another propagation, how urgent that is, what is known about
the constraint, why a constraint cannot be posted, and the counters it keeps.
-/

namespace GraphInterval

/-- Whether an event calls for another propagation. -/
inductive Decision where
  | enqueue
  | skip
  deriving DecidableEq, Repr, Inhabited

namespace Decision

def name : Decision → String
  | enqueue => "Enqueue"
  | skip => "Skip"

/-- Enqueues exactly if a condition holds. -/
def enqueueIf (condition : Bool) : Decision := if condition then enqueue else skip

end Decision

/-- The urgency of a propagator; cheap ones go first. -/
inductive Priority where
  | high
  | medium
  | low
  | veryLow
  deriving DecidableEq, Repr, Inhabited

namespace Priority

def name : Priority → String
  | high => "High"
  | medium => "Medium"
  | low => "Low"
  | veryLow => "VeryLow"

/-- The place of a priority in the order of urgency. -/
def rank : Priority → Nat
  | high => 0
  | medium => 1
  | low => 2
  | veryLow => 3

end Priority

/-- What is known of a constraint on the current domains. -/
inductive Entailment where
  /-- Every instantiation satisfies it. -/
  | satisfied
  /-- No instantiation satisfies it. -/
  | violated
  /-- Neither is established. -/
  | undetermined
  deriving DecidableEq, Repr, Inhabited

namespace Entailment

def name : Entailment → String
  | satisfied => "Satisfied"
  | violated => "Violated"
  | undetermined => "Undetermined"

/-- The answer for domains on which no violation was found. -/
def ofInstantiated (instantiated : Bool) : Entailment :=
  if instantiated then satisfied else undetermined

end Entailment

/-- The edges of a node that a constraint on nodes counts. -/
inductive Orientation where
  /-- The outgoing edges in a directed graph. -/
  | successors
  /-- The incoming edges in a directed graph. -/
  | predecessors
  /-- All edges in an undirected graph. -/
  | neighbours
  deriving DecidableEq, Repr, Inhabited

namespace Orientation

def name : Orientation → String
  | successors => "Successors"
  | predecessors => "Predecessors"
  | neighbours => "Neighbours"

/-- Whether an orientation makes sense for a kind of graph. -/
def supports (orientation : Orientation) (directed : Bool) : Bool :=
  directed != (orientation == neighbours)

end Orientation

/-- Why domains cannot be created or a constraint cannot be posted on them. -/
inductive SetupError where
  /-- The lower bound of a graph variable is not a subgraph of its upper bound. -/
  | inconsistentBounds
  /-- There is not one value for every node. -/
  | mismatchedNodeCount (expected actual : Nat)
  /-- The kind of graph has no edges of the orientation. -/
  | unsupportedOrientation (orientation : Orientation) (directed : Bool)
  /-- A row of the cost matrix does not have one entry for every node. -/
  | nonSquareCosts (row expected actual : Nat)
  /-- A tour was posted on a directed graph. -/
  | directedTour
  /-- A tour was posted on fewer than three nodes. -/
  | tooFewNodes (order : Nat)
  deriving DecidableEq, Repr, Inhabited

def SetupError.message : SetupError → String
  | .inconsistentBounds => "the lower bound graph is not a subgraph of the upper bound graph"
  | .mismatchedNodeCount expected actual =>
      s!"expected {expected} per-node values but {actual} were provided"
  | .unsupportedOrientation orientation directed =>
      let name := orientation.name
      s!"orientation {name} is not supported on this graph (directed: {directed})"
  | .nonSquareCosts row expected actual =>
      s!"row {row} of the cost matrix has {actual} entries instead of {expected}"
  | .directedTour => "a tour constraint requires an undirected graph"
  | .tooFewNodes order => s!"a tour requires at least 3 nodes, the graph has {order}"

/-- The text of a failure of a single change to a domain. -/
def Failure.mutationMessage : Failure → Option String
  | .wipeout => some "the domain became empty"
  | .conflict detector => some s!"conflict detected by {detector}"
  | .fault cause => cause.message

/-- The text of a failure of a propagation. -/
def Failure.propagationMessage : Failure → Option String
  | .wipeout => some "domain wipeout"
  | .conflict detector => some s!"conflict detected by {detector}"
  | .fault cause => cause.message

/-- A list in the state of a propagator that holds what is visited while it is visited.  Between
visits it is kept for its memory only. -/
structure Buffer (π β : Type) where
  content : π → List β
  store : π → List β → π
  content_store (p : π) (l : List β) : content (store p l) = l := by intros; rfl
  store_store (p : π) (l m : List β) : store (store p l) m = store p m := by intros; rfl

/-- A propagator together with the domains it is posted on. -/
structure Posted (π δ : Type) where
  propagator : π
  domains : δ

namespace Posted

variable {π ρ δ β : Type}

/-- Runs a computation on the domains. -/
def onDomains {α : Type} (attempt : Attempt δ α) : Attempt (Posted π δ) α :=
  attempt.within Posted.domains fun s domains => { s with domains }

/-- Adjusts the propagator. -/
def update (f : π → π) : Attempt (Posted π δ) Unit :=
  modify fun s => { s with propagator := f s.propagator }

/-- Visits what is listed of the domains.  The list is taken down before the first visit, as the
visits change the domains; what is left in the buffer from earlier visits is dropped. -/
def visitEach (buffer : Buffer π β) (listed : δ → List β)
    (visit : β → Attempt (Posted π δ) Unit) : Attempt (Posted π δ) Unit := do
  update fun p => buffer.store p []
  let d := (← get).domains
  update fun p => buffer.store p (buffer.content p ++ listed d)
  (buffer.content (← get).propagator).forM visit

/-- Runs the propagation of a propagator that is wrapped in a larger type. -/
def wrapped (wrap : ρ → π) (propagation : Attempt (Posted ρ δ) Unit) (inner : ρ) :
    Attempt (Posted π δ) Unit :=
  propagation.within (fun s => { propagator := inner, domains := s.domains })
    fun _ s => { propagator := wrap s.propagator, domains := s.domains }

end Posted

/-- Named counters in the order in which they are reported. -/
abbrev Counters := List (String × Nat)

end GraphInterval
