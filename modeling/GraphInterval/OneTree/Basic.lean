import GraphInterval.GraphVar.Basic
import GraphInterval.Scalar.Basic
import GraphInterval.Table

/-!
# One-trees

A one-tree is a spanning tree over the nodes other than a designated one,
together with two edges at the designated node.  Every Hamiltonian cycle is a
one-tree, so the cost of a minimum one-tree bounds the cost of every tour from
below.  The two finders of this library compute a one-tree inside the possible
edges of a graph variable that holds the mandatory ones; they share the rule
by which the edges of the designated node are chosen.
-/

namespace GraphInterval

structure OneTree (α : Type) where
  /-- The number of nodes. -/
  order : Nat
  /-- For every pair of nodes, row by row, whether it is an edge. -/
  adjacency : Array Bool
  degrees : Array Nat
  /-- The edges in the order in which they were added. -/
  edges : Array Edge
  /-- The sum of the costs of the edges in that order. -/
  cost : α
  deriving Inhabited

namespace OneTree

/-- The node that is attached to the tree by two edges. -/
def designated : Nat := 0

/-- The detector of the conflict that no one-tree exists. -/
def detector : String := "OneTree"

variable {α : Type} [Scalar α]

def empty (order : Nat) : OneTree α :=
  { order
    adjacency := Array.replicate (order * order) false
    degrees := Array.replicate order 0
    edges := #[]
    cost := Scalar.ofInt 0 }

/-- The place of a pair of nodes in the adjacency. -/
def slot (t : OneTree α) (a b : Nat) : Nat := a * t.order + b

def contains (t : OneTree α) (a b : Nat) : Bool := t.adjacency.getD (t.slot a b) false

/-- Whether a pair is an edge, for nodes that may be any numbers. -/
def tryContains (t : OneTree α) (a b : Nat) : Except Fault Bool :=
  if t.slot a b < t.adjacency.size then .ok (t.contains a b) else .error .indexOutOfRange

def degree (t : OneTree α) (node : Nat) : Nat := t.degrees.getD node 0

/-- Marks a pair of nodes in both orders. -/
def mark (t : OneTree α) (a b : Nat) (present : Bool) : OneTree α :=
  { t with adjacency :=
    (t.adjacency.setIfInBounds (t.slot a b) present).setIfInBounds (t.slot b a) present }

def addEdge (t : OneTree α) (a b : Nat) (cost : α) : OneTree α :=
  { t.mark a b true with
    degrees := (t.degrees.modify a (· + 1)).modify b (· + 1)
    edges := t.edges.push (a, b)
    cost := t.cost + cost }

/-- Removes all edges. -/
def clear (t : OneTree α) : OneTree α :=
  { t.edges.foldl (fun t (a, b) => t.mark a b false) t with
    degrees := Array.replicate t.degrees.size 0
    edges := #[]
    cost := Scalar.ofInt 0 }

/-- Whether two one-trees agree in every respect, the order of their edges included. -/
def sameTree (t u : OneTree α) : Bool :=
  t.order == u.order && t.adjacency == u.adjacency && t.degrees == u.degrees &&
    t.edges == u.edges && t.cost == u.cost

/-- Whether no edge leads out of the nodes. -/
def isClosed (t : OneTree α) : Bool :=
  t.edges.all fun (a, b) => decide (a < t.order) && decide (b < t.order)

end OneTree

variable {α : Type} [Scalar α]

/-- The cost of an edge. -/
def Table.cost (costs : Table α) (a b : Nat) : α := costs.entry a b (Scalar.ofInt 0)

namespace OneTree

/-- The best and the second best of the nodes seen so far, after one more node.  Among nodes of
equal cost the earlier one is better. -/
def considerNode (cost : Nat → α) : Option Nat × Option Nat → Nat → Option Nat × Option Nat
  | (none, second), node => (some node, second)
  | (some first, second), node =>
      if cost node < cost first then (some node, some first)
      else
        match second with
        | none => (some first, some node)
        | some other => if cost other ≤ cost node then (some first, some other)
            else (some first, some node)

/-- The two cheapest nodes of a list, the cheaper one first. -/
def twoCheapest (cost : Nat → α) (nodes : List Nat) : List Nat :=
  let (first, second) := nodes.foldl (considerNode cost) (none, none)
  first.toList ++ second.toList

/-- Adds an edge of the designated node. -/
def join (costs : Table α) (t : OneTree α) (node : Nat) : OneTree α :=
  t.addEdge designated node (costs.cost designated node)

/-- Adds an edge of the designated node unless it has two. -/
def joinIfNeeded (costs : Table α) (t : OneTree α) (node : Nat) : OneTree α :=
  if t.degree designated = 2 then t else t.join costs node

/-- The edges of the designated node that are possible and not mandatory. -/
def optionalNodes (g : GraphVar) : List Nat :=
  (g.upper.successors designated).toList.filter (!g.isMandatory designated ·)

/-- Adds the mandatory edges of the designated node and completes them with the cheapest others. -/
def joinDesignated (costs : Table α) (g : GraphVar) (t : OneTree α) : OneTree α :=
  let t := (g.lower.successors designated).toList.foldl (join costs) t
  (twoCheapest (costs.cost designated) (optionalNodes g)).foldl (joinIfNeeded costs) t

/-- Whether every cost that decides about the designated node exists. -/
def knowsDesignated (costs : Table α) (g : GraphVar) : Bool :=
  ((g.lower.successors designated).toList ++ optionalNodes g).all (costs.covers designated)

/-- Attaches the designated node by two edges.  There is a conflict if more than two are mandatory
or fewer than two are possible. -/
def attachDesignated (costs : Table α) (g : GraphVar) : Attempt (OneTree α) Unit := fun t =>
  if g.order = 0 then .error (.fault .indexOutOfRange) t
  else if 2 < (g.lower.successors designated).size then .error (.conflict detector) t
  else
    let joined := t.joinDesignated costs g
    if !(knowsDesignated costs g && joined.isClosed) then .error (.fault .indexOutOfRange) t
    else if joined.degree designated < 2 then .error (.conflict detector) joined
    else .ok () joined

end OneTree

end GraphInterval
