import GraphInterval.Propagation

/-!
# Bounded degrees

The constraint that no node has more than a given number of successors,
predecessors or neighbours.  A node that has reached its bound loses all edges
that are not mandatory; a node above its bound is removed, which wipes the
domain out as the endpoint of a mandatory edge is mandatory itself.
-/

namespace GraphInterval

/-- The bounds on the degrees as a caller gives them. -/
inductive DegreeBound where
  /-- All nodes have the same bound. -/
  | uniform (bound : Nat)
  /-- Every node has its own bound. -/
  | perNode (bounds : List Nat)
  deriving DecidableEq, Repr, Inhabited

structure DegreeLimit where
  orientation : Orientation
  /-- The bound of every node. -/
  bounds : Array Nat
  /-- The nodes whose bounds are being applied. -/
  nodes : List Nat := []
  /-- The other endpoints of the edges that are being excluded at a node. -/
  incident : List Nat := []
  numPropagations : Nat := 0
  numNodesRemoved : Nat := 0
  numEdgesRemoved : Nat := 0
  deriving Inhabited

namespace DegreeLimit

abbrev Run := Attempt (Posted DegreeLimit GraphVar)

def name : String := "NodeDegreeAtMost"

def priority : Priority := .high

def counters (p : DegreeLimit) : Counters :=
  [("num_propagations", p.numPropagations),
    ("num_nodes_removed", p.numNodesRemoved),
    ("num_edges_removed", p.numEdgesRemoved)]

/-- Posts the constraint if its orientation suits the graph and it has a bound for every node. -/
def make (orientation : Orientation) (bound : DegreeBound) (g : GraphVar) :
    Except SetupError DegreeLimit :=
  if !orientation.supports g.directed then
    .error (.unsupportedOrientation orientation g.directed)
  else
    match bound with
    | .uniform bound => .ok { orientation, bounds := Array.replicate g.order bound }
    | .perNode bounds =>
        if bounds.length = g.order then .ok { orientation, bounds := bounds.toArray }
        else .error (.mismatchedNodeCount g.order bounds.length)

def bound (p : DegreeLimit) (node : Nat) : Nat := p.bounds.getD node 0

def nodesBuffer : Buffer DegreeLimit Nat where
  content := nodes
  store p nodes := { p with nodes }

def incidentBuffer : Buffer DegreeLimit Nat where
  content := incident
  store p incident := { p with incident }

/-- The other endpoints of the edges of a node that count. -/
def neighbourhood (orientation : Orientation) (g : Graph) (node : Nat) : SparseSet :=
  match orientation with
  | .successors | .neighbours => g.successors node
  | .predecessors => g.predecessors node

/-- The other endpoints of the edges of a node that count and may still be excluded. -/
def optionalNeighbours (orientation : Orientation) (node : Nat) (g : GraphVar) : List Nat :=
  (neighbourhood orientation g.upper node).toList.filter
    (!(neighbourhood orientation g.lower node).contains ·)

/-- Excludes the edge between a node and the other endpoint of an edge that counts. -/
def removeIncident (orientation : Orientation) (node other : Nat) : Attempt GraphVar Bool :=
  match orientation with
  | .successors | .neighbours => GraphVar.removeEdge node other
  | .predecessors => GraphVar.removeEdge other node

/-- Only a new mandatory edge leads to new consequences. -/
def notify (_ : DegreeLimit) (event : Event) : Decision :=
  .enqueueIf (event.kind == .edgeEnforced)

/-- Excludes an edge of a node that has reached its bound. -/
def removeOptional (orientation : Orientation) (node other : Nat) : Run Unit := do
  if ← Posted.onDomains (removeIncident orientation node other) then
    Posted.update fun p => { p with numEdgesRemoved := p.numEdgesRemoved + 1 }

/-- Applies the bound of one node. -/
def limitNode (node : Nat) : Run Unit := do
  let ⟨p, g⟩ ← get
  let mandatory := neighbourhood p.orientation g.lower node
  let potential := neighbourhood p.orientation g.upper node
  if p.bound node < mandatory.size then
    let _ ← Posted.onDomains (GraphVar.removeNode node)
    Posted.update fun p => { p with numNodesRemoved := p.numNodesRemoved + 1 }
  else if mandatory.size = p.bound node ∧ mandatory.size < potential.size then
    Posted.visitEach incidentBuffer (optionalNeighbours p.orientation node)
      (removeOptional p.orientation node)

/-- Applies the bounds of all possible nodes. -/
def propagateFromScratch : Run Unit := do
  Posted.update fun p => { p with numPropagations := p.numPropagations + 1 }
  Posted.visitEach nodesBuffer (·.upper.nodes.toList) limitNode

def entailment (p : DegreeLimit) (g : GraphVar) : Entailment :=
  let exceeds node := decide (p.bound node < (neighbourhood p.orientation g.lower node).size)
  if g.lower.nodes.toList.any exceeds then .violated
  else .ofInstantiated g.isInstantiated

end DegreeLimit

end GraphInterval
