import GraphInterval.Graph.Basic

/-!
# Graph operations on unchecked nodes

The operations of a graph for callers that pass any number as a node.  Adding
a node outside of the universe is a fault of its node set, and so is asking
for the edges of one; a test for such a node just fails.
-/

namespace GraphInterval

namespace Graph

/-- The neighbourhood tables have an entry for every node of the universe. -/
def checkNode (g : Graph) (node : Nat) : Except Fault Unit :=
  if node < g.outgoing.size then .ok () else .error .indexOutOfRange

/-- A node that is to be added lies in the universe. -/
def checkMember (g : Graph) (node : Nat) : Except Fault Unit :=
  if node < g.order then .ok () else .error (.outsideUniverse node g.order)

namespace Guarded

/-- Adds a node; answers whether it is new. -/
def addNode (g : Graph) (node : Nat) : Except Fault (Bool × Graph) := do
  g.checkMember node
  return (!g.hasNode node, g.addNode node)

/-- Removes a node with its edges; answers whether it was there. -/
def removeNode (g : Graph) (node : Nat) : Except Fault (Bool × Graph) := do
  g.checkNode node
  return (g.hasNode node, ← g.removeNode node)

/-- Adds an edge; answers whether it is new. -/
def addEdge (g : Graph) (a b : Nat) : Except Fault (Bool × Graph) := do
  g.checkMember a
  g.checkMember b
  return (!g.hasEdge a b, g.addEdge a b)

/-- Removes an edge; answers whether it was there. -/
def removeEdge (g : Graph) (a b : Nat) : Except Fault (Bool × Graph) := do
  g.checkNode a
  return (g.hasEdge a b, g.removeEdge a b)

def hasEdge (g : Graph) (a b : Nat) : Except Fault Bool := do
  g.checkNode a
  return g.hasEdge a b

def successors (g : Graph) (node : Nat) : Except Fault SparseSet := do
  g.checkNode node
  return g.successors node

def predecessors (g : Graph) (node : Nat) : Except Fault SparseSet := do
  g.checkNode node
  return g.predecessors node

/-- Whether every node and every edge also belongs to another graph.  Edges are only looked up in it
once it has all the nodes. -/
def isSubgraphOf (g h : Graph) : Except Fault Bool := do
  if g.nodes.toList.all h.hasNode then
    g.nodes.toList.allM fun a => do (← successors g a).toList.allM (hasEdge h a)
  else return false

/-- Adds nodes one after the other. -/
def addNodes (g : Graph) (nodes : List Nat) : Except Fault Graph :=
  nodes.foldlM (fun g node => return (← addNode g node).2) g

/-- Adds edges one after the other. -/
def addEdges (g : Graph) (edges : List Edge) : Except Fault Graph :=
  edges.foldlM (fun g (a, b) => return (← addEdge g a b).2) g

end Guarded

end Graph

end GraphInterval
