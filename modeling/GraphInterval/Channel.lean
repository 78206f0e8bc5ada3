import GraphInterval.Domain.Values
import GraphInterval.Propagation

/-!
# Neighbours and successors

The constraint between an undirected graph and one successor variable per node
that the successor of every node is a neighbour of it, and that every edge
leads from one of its endpoints to the successor of it.
-/

namespace GraphInterval

structure ChannelDomains where
  graph : GraphVar
  /-- The domain of the successor of every node. -/
  successors : Array Values
  deriving Inhabited

namespace ChannelDomains

def successor (d : ChannelDomains) (node : Nat) : Values := d.successors.getD node default

/-- Whether a value is possible as the successor of a node. -/
def allows (d : ChannelDomains) (node value : Nat) : Bool := (d.successor node).contains value

/-- Whether an edge is possible from a node to a value, which may be no node at all. -/
def isNeighbour (d : ChannelDomains) (node value : Nat) : Bool :=
  decide (value < d.graph.order) && d.graph.isPotential node value

/-- Runs a computation on the successor of a node. -/
def onSuccessor {α : Type} (node : Nat) (attempt : Attempt Values α) : Attempt ChannelDomains α :=
  attempt.within (·.successor node) fun d values =>
    { d with successors := d.successors.setIfInBounds node values }

/-- Runs a computation on the successor of a node, of which there must be one. -/
def onSuccessor? {α : Type} (node : Nat) (attempt : Attempt Values α) :
    Attempt ChannelDomains α := do
  if node < (← get).successors.size then onSuccessor node attempt
  else throw (.fault .indexOutOfRange)

/-- Makes a checkpoint in every domain. -/
def mark (d : ChannelDomains) : ChannelDomains :=
  { graph := d.graph.mark, successors := d.successors.map Values.mark }

/-- Restores every domain. -/
def synchronise (target : Nat) : Attempt ChannelDomains Unit := do
  (GraphVar.synchronise target).within ChannelDomains.graph fun d graph => { d with graph }
  (List.range (← get).successors.size).forM fun node =>
    onSuccessor node (Values.synchronise target)

end ChannelDomains

structure Channel where
  /-- The neighbours or the values that are being gone through. -/
  values : List Nat := []
  numPropagations : Nat := 0
  numSuccessorsAssigned : Nat := 0
  numValuesRemoved : Nat := 0
  deriving Inhabited

namespace Channel

abbrev Run := Attempt (Posted Channel ChannelDomains)

def name : String := "NeighbourSuccessorChannel"

def priority : Priority := .medium

def counters (c : Channel) : Counters :=
  [("num_propagations", c.numPropagations),
    ("num_successors_assigned", c.numSuccessorsAssigned),
    ("num_values_removed", c.numValuesRemoved)]

/-- Posts the constraint on an undirected graph with one successor per node. -/
def make (d : ChannelDomains) : Except SetupError Channel :=
  if d.graph.directed then .error (.unsupportedOrientation .neighbours true)
  else if d.successors.size = d.graph.order then .ok {}
  else .error (.mismatchedNodeCount d.graph.order d.successors.size)

/-- Only the events of edges are of interest. -/
def notify (_ : Channel) (event : Event) : Decision :=
  .enqueueIf (EventKind.edgeEvents.contains event.kind)

/-- Directs a mandatory edge if one of its directions is excluded; answers whether that changed
a successor. -/
def directEdge (node neighbour : Nat) : Attempt ChannelDomains Bool := do
  let d ← get
  if !d.allows node neighbour then
    ChannelDomains.onSuccessor neighbour (Values.assign node)
  else if !d.allows neighbour node then
    ChannelDomains.onSuccessor node (Values.assign neighbour)
  else return false

/-- Directs a mandatory edge and counts the successor that this fixes. -/
def assignAlong (node neighbour : Nat) : Run Unit := do
  if ← Posted.onDomains (directEdge node neighbour) then
    Posted.update fun c => { c with numSuccessorsAssigned := c.numSuccessorsAssigned + 1 }

/-- Takes a value away that is no neighbour. -/
def removeValue (node value : Nat) : Run Unit := do
  if ← Posted.onDomains (ChannelDomains.onSuccessor node (Values.remove value)) then
    Posted.update fun c => { c with numValuesRemoved := c.numValuesRemoved + 1 }

def valuesBuffer : Buffer Channel Nat where
  content := values
  store c values := { c with values }

/-- Channels both ways at one node. -/
def channelNode (node : Nat) : Run Unit := do
  Posted.visitEach valuesBuffer (fun d => (d.graph.lower.successors node).toList)
    (assignAlong node)
  Posted.visitEach valuesBuffer
    (fun d => (d.successor node).members.toList.filter (!d.isNeighbour node ·))
    (removeValue node)

/-- Channels at all nodes in increasing order. -/
def propagateFromScratch : Run Unit := do
  Posted.update fun c => { c with numPropagations := c.numPropagations + 1 }
  (List.range (← get).domains.graph.order).forM channelNode

/-- Whether the fixed successor of a node is no neighbour, or a mandatory edge of it has no
direction left. -/
def isViolatedAt (d : ChannelDomains) (node : Nat) : Bool :=
  (d.successor node).value?.any (!d.isNeighbour node ·) ||
    (d.graph.lower.successors node).toList.any fun neighbour =>
      !d.allows node neighbour && !d.allows neighbour node

def entailment (d : ChannelDomains) : Entailment :=
  if (List.range d.graph.order).any (isViolatedAt d) then .violated
  else .ofInstantiated (d.graph.isInstantiated && d.successors.all Values.isFixed)

end Channel

end GraphInterval
