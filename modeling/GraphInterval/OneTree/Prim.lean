import GraphInterval.OneTree.Basic
import GraphInterval.TiedHeap

/-!
# Growing a one-tree

The fast finder grows the spanning tree from node 1 and always attaches the
cheapest node that is adjacent to the tree.  A mandatory edge has the value
`-∞` for this comparison, which forces it into the tree as long as it closes
no cycle; the cost of the one-tree counts it at its real cost.
-/

namespace GraphInterval

/-- The fast finder, with the one-tree that it computed last. -/
structure Prim (α : Type) where
  tree : OneTree α
  /-- The nodes adjacent to the tree, by the value of their cheapest edge to it. -/
  heap : TiedHeap α
  inTree : Array Bool
  /-- The tree node at the cheapest edge of every node in the heap. -/
  parents : Array Nat
  deriving Inhabited

namespace Prim

variable {α : Type} [Scalar α]

/-- A finder for graphs of the given order. -/
def make (order : Nat) : Prim α :=
  { tree := OneTree.empty order
    heap := TiedHeap.empty order
    inTree := Array.replicate order false
    parents := Array.replicate order 0 }

/-- The cost of the last one-tree. -/
def bound (p : Prim α) : α := p.tree.cost

def spans (p : Prim α) (node : Nat) : Bool := p.inTree.getD node false

/-- A tree in the course of its growth. -/
structure Growth (α : Type) where
  finder : Prim α
  /-- Whether every cost and node that was consulted so far exists, and the heap never handed out
  more nodes than it holds. -/
  covered : Bool
  deriving Inhabited

namespace Growth

/-- The value by which an edge is compared. -/
def edgeValue (costs : Table α) (g : GraphVar) (a b : Nat) : α :=
  if g.isMandatory a b then Scalar.bottom else costs.cost a b

/-- Offers the edge from a new tree node to a neighbour of it. -/
def offer (costs : Table α) (g : GraphVar) (node : Nat) (s : Growth α) (neighbour : Nat) :
    Growth α :=
  if neighbour = OneTree.designated then s
  else if s.finder.tree.order ≤ neighbour then { s with covered := false }
  else if s.finder.spans neighbour then s
  else
    let known := g.isMandatory node neighbour || costs.covers node neighbour
    let value := edgeValue costs g node neighbour
    let (changed, heap) := s.finder.heap.insertOrDecrease neighbour value
    let parents := s.finder.parents
    { finder :=
        { s.finder with
          heap
          parents := if changed then parents.setIfInBounds neighbour node else parents }
      covered := s.covered && known }

/-- Adds a node to the tree and offers its edges. -/
def addNode (costs : Table α) (g : GraphVar) (s : Growth α) (node : Nat) : Growth α :=
  let finder := { s.finder with inTree := s.finder.inTree.setIfInBounds node true }
  (g.upper.successors node).toList.foldl (offer costs g node) { s with finder }

/-- Attaches the cheapest adjacent node. -/
def step (costs : Table α) (g : GraphVar) (s : Growth α) : Option (Growth α) :=
  match s.finder.heap.popMin with
  | (none, _) => none
  | (some node, heap) =>
      let parent := s.finder.parents.getD node 0
      let tree := s.finder.tree.addEdge parent node (costs.cost parent node)
      some (addNode costs g
        { finder := { s.finder with heap, tree }
          covered := s.covered && !s.finder.heap.isEmpty && costs.covers parent node } node)

end Growth

/-- The finder without a tree. -/
def restart (p : Prim α) : Prim α :=
  { p with
    tree := p.tree.clear
    heap := p.heap.clear
    inTree := Array.replicate p.inTree.size false }

/-- Grows a tree from node 1 as far as possible. -/
def grow (costs : Table α) (g : GraphVar) (p : Prim α) : Growth α :=
  iterate (Growth.step costs g) p.tree.order
    (Growth.addNode costs g { finder := p.restart, covered := true } 1)

/-- Computes a minimum one-tree; there is a conflict if there is none with all mandatory edges. -/
def compute (costs : Table α) (g : GraphVar) : Attempt (Prim α) Unit := do
  let p ← get
  if p.tree.order < 2 ∨ g.order < 2 then throw (.fault .indexOutOfRange)
  let grown := grow costs g p
  set grown.finder
  if !grown.covered then throw (.fault .indexOutOfRange)
  if grown.finder.tree.edges.size + 2 ≠ p.tree.order then throw (.conflict OneTree.detector)
  (OneTree.attachDesignated costs g).within Prim.tree fun p tree => { p with tree }

end Prim

end GraphInterval
