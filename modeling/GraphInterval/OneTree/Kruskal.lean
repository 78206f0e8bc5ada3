import GraphInterval.OneTree.Basic
import GraphInterval.Partition

/-!
# Selecting a one-tree edge by edge

The thorough finder takes the mandatory edges first and then the other
possible edges by increasing cost, each of them unless it closes a cycle.  It
keeps what the sensitivity analysis needs: the costs, and the edges that were
passed over in the order of their costs.
-/

namespace GraphInterval

/-- The decisions of a sensitivity analysis. -/
structure Kruskal.Analysis (α : Type) where
  /-- By how much the bound rises if an edge outside of the one-tree is included, or one of the
  one-tree is excluded. -/
  marginals : Table α
  /-- The edges to exclude, the last one first. -/
  toRemove : List Edge := []
  /-- The edges to enforce, the last one first. -/
  toEnforce : List Edge := []
  deriving Inhabited

/-- The thorough finder, with the one-tree that it computed last. -/
structure Kruskal (α : Type) where
  tree : OneTree α
  sets : Partition
  /-- The possible edges away from the designated node that are not in the tree, by cost. -/
  nonTreeEdges : List Edge
  costs : Table α
  /-- The neighbours of every node in the tree without the designated node. -/
  neighbours : Array (List Nat)
  /-- The parent of every node when that tree is rooted at node 1. -/
  parents : Array Nat
  depths : Array Nat
  /-- The largest cost of an edge that is not mandatory on the path between two nodes. -/
  pathMaxima : Table α
  /-- The cost of the cheapest edge outside of the tree around the edge to the parent. -/
  replacements : Array α
  /-- Shortcuts of a walk through the tree. -/
  jumps : Array Nat
  /-- The nodes that wait in a walk through the tree, the last one first. -/
  stack : List Nat := []
  /-- What the last analysis came to; it is kept until the next one starts. -/
  analysis : Kruskal.Analysis α
  deriving Inhabited

namespace Kruskal

variable {α : Type} [Scalar α]

/-- A finder for graphs of the given order. -/
def make (order : Nat) : Kruskal α :=
  { tree := OneTree.empty order
    sets := Partition.discrete order
    nonTreeEdges := []
    costs := Table.replicate order (Scalar.ofInt 0)
    neighbours := Array.replicate order []
    parents := Array.replicate order 0
    depths := Array.replicate order 0
    pathMaxima := Table.replicate order Scalar.bottom
    replacements := Array.replicate order Ranked.top
    jumps := Array.replicate order 0
    analysis := { marginals := Table.replicate order Ranked.top } }

/-- The cost of the last one-tree. -/
def bound (k : Kruskal α) : α := k.tree.cost

/-- The marginal costs that the last analysis found. -/
def marginals (k : Kruskal α) : Table α := k.analysis.marginals

/-- The pairs of two nodes other than the designated one, in lexicographic order. -/
def pairs (order : Nat) : List Edge :=
  (List.range' 1 (order - 1)).flatMap fun a =>
    (List.range' (a + 1) (order - 1 - a)).map (a, ·)

/-- The finder without a tree and with new costs. -/
def restart (costs : Table α) (k : Kruskal α) : Kruskal α :=
  { k with
    tree := k.tree.clear
    sets := k.sets.reset
    nonTreeEdges := []
    costs := k.costs.overwrite costs }

/-- Takes a mandatory edge; a cycle of such edges is a conflict. -/
def takeMandatory (costs : Table α) (edge : Edge) : Attempt (Kruskal α) Unit := fun k =>
  let (a, b) := edge
  let (fresh, sets) := k.sets.union a b
  let k := { k with sets }
  if !fresh then .error (.conflict OneTree.detector) k
  else if !costs.covers a b then .error (.fault .indexOutOfRange) k
  else .ok () { k with tree := k.tree.addEdge a b (costs.cost a b) }

/-- Takes an edge, or passes it over if it closes a cycle. -/
def takeUnlessCycle (costs : Table α) (k : Kruskal α) (edge : Edge) : Kruskal α :=
  let (a, b) := edge
  let (fresh, sets) := k.sets.union a b
  if fresh then { k with sets, tree := k.tree.addEdge a b (costs.cost a b) }
  else { k with sets, nonTreeEdges := edge :: k.nonTreeEdges }

/-- The order in which edges are considered. -/
def cheaper (costs : Table α) (e f : Edge) : Bool :=
  Scalar.precedes (costs.cost e.1 e.2) (costs.cost f.1 f.2)

/-- Considers edges by increasing cost, ones of equal cost in the given order. -/
def selectCheapest (costs : Table α) (candidates : List Edge) (k : Kruskal α) : Kruskal α :=
  let k := (candidates.mergeSort (cheaper costs)).foldl (takeUnlessCycle costs) k
  { k with nonTreeEdges := k.nonTreeEdges.reverse }

/-- Whether every cost that is read exists.  Edges are compared as soon as there are two of them; a
single one is read when it is taken. -/
def knowsCandidates (costs : Table α) (candidates : List Edge) (k : Kruskal α) : Bool :=
  match candidates with
  | [(a, b)] => costs.covers a b || !(k.sets.union a b).1
  | _ => candidates.all fun (a, b) => costs.covers a b

/-- Whether the graph has all nodes whose edges are looked at. -/
def coversPairs (order : Nat) (g : GraphVar) : Bool :=
  (pairs order).all fun edge => decide (edge.1 < g.order)

/-- Computes a minimum one-tree; there is a conflict if there is none with all mandatory edges. -/
def compute (costs : Table α) (g : GraphVar) : Attempt (Kruskal α) Unit := do
  let k ← get
  let order := k.tree.order
  if !k.costs.fits costs then throw (.fault .indexOutOfRange)
  set (k.restart costs)
  let possible := (pairs order).filter fun (a, b) => g.isPotential a b
  (possible.filter fun (a, b) => g.isMandatory a b).forM (takeMandatory costs)
  let candidates := possible.filter fun (a, b) => !g.isMandatory a b
  if !(coversPairs order g && (← get).knowsCandidates costs candidates) then
    throw (.fault .indexOutOfRange)
  modify (selectCheapest costs candidates)
  if order < 2 then throw (.fault .belowZero)
  if (← get).tree.edges.size + 2 ≠ order then throw (.conflict OneTree.detector)
  (OneTree.attachDesignated costs g).within Kruskal.tree fun k tree => { k with tree }
  if (← get).tree.edges.size ≠ order then throw (.fault .incompleteOneTree)

end Kruskal

end GraphInterval
