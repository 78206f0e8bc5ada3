import GraphInterval.Event
import GraphInterval.Graph.Basic
import GraphInterval.Trail

/-!
# Graph variables

The domain of a graph variable is the interval of graphs between a lower bound
of mandatory nodes and edges and an upper bound of possible ones.  Mutations
narrow the interval and log an event for every node and edge whose status they
decide.  The log is the undo trail as well: going back to a checkpoint takes
the events back, newest first.

Every mutation answers whether the interval changed, and fails with a wipeout
if no graph of the interval satisfies it.
-/

namespace GraphInterval

structure GraphVar where
  /-- The mandatory nodes and edges. -/
  lower : Graph
  /-- The possible nodes and edges. -/
  upper : Graph
  log : Trail Event
  deriving Inhabited

namespace GraphVar

/-- The interval of all graphs between two bounds, if the first is a subgraph of the second. -/
def between? (lower upper : Graph) : Option GraphVar :=
  if lower.order = upper.order ∧ lower.directed = upper.directed ∧ lower.isSubgraphOf upper then
    some { lower, upper, log := {} }
  else none

/-- The interval of all subgraphs of the complete graph. -/
def unconstrained (order : Nat) (directed : Bool) : GraphVar :=
  { lower := Graph.empty order directed, upper := Graph.complete order directed, log := {} }

/-- The size of the universe. -/
def order (g : GraphVar) : Nat := g.upper.order

def directed (g : GraphVar) : Bool := g.upper.directed

/-- The events that were not undone, in the order in which they happened. -/
def events (g : GraphVar) : List Event := g.log.entries.toList

def numEvents (g : GraphVar) : Nat := g.log.entries.size

def checkpoint (g : GraphVar) : Nat := g.log.checkpoint

/-- Makes a checkpoint. -/
def mark (g : GraphVar) : GraphVar := { g with log := g.log.mark }

/-- Appends an event to the log. -/
def record (g : GraphVar) (event : Event) : GraphVar := { g with log := g.log.push event }

def isMandatoryNode (g : GraphVar) (node : Nat) : Bool := g.lower.hasNode node

def isPotentialNode (g : GraphVar) (node : Nat) : Bool := g.upper.hasNode node

def isMandatory (g : GraphVar) (a b : Nat) : Bool := g.lower.hasEdge a b

def isPotential (g : GraphVar) (a b : Nat) : Bool := g.upper.hasEdge a b

/-- Whether a single graph is left, judged by the sizes of the node sets and neighbourhoods. -/
def isInstantiated (g : GraphVar) : Bool :=
  g.lower.nodes.size == g.upper.nodes.size &&
    g.upper.nodes.toList.all fun node =>
      (g.lower.successors node).size == (g.upper.successors node).size

/-- Makes a node mandatory. -/
def enforceNode (node : Nat) : Attempt GraphVar Bool := fun g =>
  if !g.isPotentialNode node then .error .wipeout g
  else if g.isMandatoryNode node then .ok false g
  else .ok true ({ g with lower := g.lower.addNode node }.record (.nodeEnforced node))

/-- Excludes an edge. -/
def removeEdge (a b : Nat) : Attempt GraphVar Bool := fun g =>
  if g.isMandatory a b then .error .wipeout g
  else if !g.isPotential a b then .ok false g
  else .ok true ({ g with upper := g.upper.removeEdge a b }.record (.edgeRemoved a b))

/-- Makes an edge mandatory, after its endpoints. -/
def enforceEdge (a b : Nat) : Attempt GraphVar Bool := do
  let g ← get
  if !g.isPotential a b then throw .wipeout
  else if g.isMandatory a b then return false
  else
    let _ ← enforceNode a
    let _ ← enforceNode b
    modify fun g => { g with lower := g.lower.addEdge a b }.record (.edgeEnforced a b)
    return true

/-- Excludes the edges of a node one by one, first those that leave it. -/
def removeIncidentEdges (node : Nat) : Attempt GraphVar Unit := do
  let g ← get
  (g.upper.successors node).toList.forM fun other => discard (removeEdge node other)
  if g.directed then
    let g ← get
    (g.upper.predecessors node).toList.forM fun other => discard (removeEdge other node)

/-- Takes a node that has no edge left out of the upper bound. -/
def dropNode (node : Nat) : Attempt GraphVar Unit := fun g =>
  match g.upper.dropIsolated node with
  | .error fault => .error (.fault fault) g
  | .ok upper => .ok () ({ g with upper }.record (.nodeRemoved node))

/-- Excludes a node, after its edges. -/
def removeNode (node : Nat) : Attempt GraphVar Bool := do
  let g ← get
  if g.isMandatoryNode node then throw .wipeout
  else if !g.isPotentialNode node then return false
  else
    removeIncidentEdges node
    dropNode node
    return true

/-- Takes an event back. -/
def undo (g : GraphVar) : Event → Except Fault GraphVar
  | .edgeEnforced a b => .ok { g with lower := g.lower.removeEdge a b }
  | .edgeRemoved a b => .ok { g with upper := g.upper.addEdge a b }
  | .nodeEnforced node => return { g with lower := ← g.lower.dropIsolated node }
  | .nodeRemoved node => .ok { g with upper := g.upper.addNode node }

/-- Restores the bounds at the time a checkpoint was left behind. -/
def synchronise (target : Nat) : Attempt GraphVar Unit := fun g =>
  match g.log.synchronise target with
  | .error fault => .error (.fault fault) g
  | .ok (undone, log) =>
      match undone.foldlM undo { g with log } with
      | .error fault => .error (.fault fault) g
      | .ok restored => .ok () restored

end GraphVar

end GraphInterval
