import GraphInterval.SparseSet

/-!
# Graphs over a fixed universe

A directed or undirected graph whose nodes are drawn from `0..order`.  Adding
an edge adds its endpoints, and removing a node removes its edges.  A directed
graph keeps the successors and the predecessors of every node; an undirected
one keeps every edge at both of its endpoints, a loop once.

Nodes outside of the universe have no edges, and adding them changes nothing.
-/

namespace GraphInterval

abbrev Edge := Nat × Nat

structure Graph where
  directed : Bool
  nodes : SparseSet
  /-- The successors of every node, or its neighbours. -/
  outgoing : Array SparseSet
  /-- The predecessors of every node; empty for an undirected graph. -/
  incoming : Array SparseSet
  deriving Inhabited, Repr

namespace Graph

/-- The graph without nodes over the universe `0..order`. -/
def empty (order : Nat) (directed : Bool) : Graph :=
  let none := Array.replicate order (SparseSet.empty order)
  { directed, nodes := SparseSet.empty order, outgoing := none,
    incoming := if directed then none else #[] }

/-- The size of the universe. -/
def order (g : Graph) : Nat := g.nodes.capacity

def successors (g : Graph) (node : Nat) : SparseSet :=
  g.outgoing.getD node (SparseSet.empty 0)

def predecessors (g : Graph) (node : Nat) : SparseSet :=
  if g.directed then g.incoming.getD node (SparseSet.empty 0) else g.successors node

def hasNode (g : Graph) (node : Nat) : Bool := g.nodes.contains node

def hasEdge (g : Graph) (a b : Nat) : Bool := (g.successors a).contains b

def addNode (g : Graph) (node : Nat) : Graph := { g with nodes := g.nodes.insert node }

/-- Adds an edge and its endpoints. -/
def addEdge (g : Graph) (a b : Nat) : Graph :=
  let g := (g.addNode a).addNode b
  if g.hasEdge a b then g
  else
    let outgoing := g.outgoing.modify a (·.insert b)
    if g.directed then
      { g with outgoing, incoming := g.incoming.modify b (·.insert a) }
    else { g with outgoing := outgoing.modify b (·.insert a) }

def removeEdge (g : Graph) (a b : Nat) : Graph :=
  if g.hasEdge a b then
    let outgoing := g.outgoing.modify a (·.erase b)
    if g.directed then
      { g with outgoing, incoming := g.incoming.modify b (·.erase a) }
    else { g with outgoing := outgoing.modify b (·.erase a) }
  else g

/-- Whether a node has no edge. -/
def isIsolated (g : Graph) (node : Nat) : Bool :=
  (g.successors node).isEmpty && (g.predecessors node).isEmpty

/-- Removes a node, which must have no edge left. -/
def dropIsolated (g : Graph) (node : Nat) : Except Fault Graph :=
  if g.isIsolated node then .ok { g with nodes := g.nodes.erase node }
  else .error (.incidentEdges node)

/-- Removes the edges of a node, first those that leave it. -/
def isolate (g : Graph) (node : Nat) : Graph :=
  let g := (g.successors node).toList.foldl (fun g other => g.removeEdge node other) g
  if g.directed then
    (g.predecessors node).toList.foldl (fun g other => g.removeEdge other node) g
  else g

/-- Removes a node and its edges. -/
def removeNode (g : Graph) (node : Nat) : Except Fault Graph := (g.isolate node).dropIsolated node

/-- Adds every edge from one node to another node of the universe, by increasing target. -/
def addFan (g : Graph) (a : Nat) : Graph :=
  (List.range g.order).foldl (fun g b => if a = b then g else g.addEdge a b) g

/-- The graph of all edges between two distinct nodes. -/
def complete (order : Nat) (directed : Bool) : Graph :=
  (List.range order).foldl addFan (empty order directed)

/-- The number of edges; of an undirected graph both orders of an edge count once. -/
def numEdges (g : Graph) : Nat :=
  let endpoints := g.outgoing.foldl (fun count targets => count + targets.size) 0
  if g.directed then endpoints
  else
    let loops := (List.range g.order).countP fun node => g.hasEdge node node
    (endpoints + loops) / 2

/-- Whether every node and every edge also belongs to another graph. -/
def isSubgraphOf (g h : Graph) : Bool :=
  g.nodes.toList.all h.hasNode &&
    g.nodes.toList.all fun a => (g.successors a).toList.all (h.hasEdge a)

/-- Whether two graphs have the same universe, kind, nodes and edges. -/
def sameGraph (g h : Graph) : Bool :=
  g.directed == h.directed && g.nodes == h.nodes &&
    g.outgoing == h.outgoing && g.incoming == h.incoming

instance : BEq Graph := ⟨sameGraph⟩

/-- The edges by increasing endpoints; of an undirected graph the first endpoint is the smaller. -/
def edges (g : Graph) : List Edge :=
  (List.range g.order).flatMap fun a =>
    ((g.successors a).sorted.filter fun b => g.directed || decide (a ≤ b)).map (a, ·)

end Graph

end GraphInterval
