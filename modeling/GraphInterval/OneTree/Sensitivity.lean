import GraphInterval.Iterate
import GraphInterval.OneTree.Kruskal
import GraphInterval.Propagation

/-!
# Sensitivity of the one-tree bound

By how much does the bound rise if a certain edge has to be part of the
one-tree, or must not be?  An edge outside of the one-tree replaces the most
expensive edge that is not mandatory on the tree path between its endpoints;
an edge of the tree is replaced by the cheapest edge whose path contains it.
The two edges of the designated node are exchanged among its own edges.

Edges whose inclusion would lift the bound above a budget are excluded, and
edges of the one-tree whose exclusion would are enforced.
-/

namespace GraphInterval

namespace Kruskal

variable {α : Type} [Scalar α]

/-- The node at which the tree is rooted. -/
def root : Nat := 1

def treeNeighbours (k : Kruskal α) (node : Nat) : List Nat := k.neighbours.getD node []

def parent (k : Kruskal α) (node : Nat) : Nat := k.parents.getD node 0

def depth (k : Kruskal α) (node : Nat) : Nat := k.depths.getD node 0

def jump (k : Kruskal α) (node : Nat) : Nat := k.jumps.getD node node

/-- Lists the neighbours in the tree without the designated node. -/
def listNeighbours (k : Kruskal α) : Kruskal α :=
  let inner := k.tree.edges.toList.filter fun (a, b) =>
    a != OneTree.designated && b != OneTree.designated
  { k with
    neighbours := inner.foldl
      (fun neighbours (a, b) => (neighbours.modify a (· ++ [b])).modify b (· ++ [a]))
      (Array.replicate k.neighbours.size []) }

/-- Starts a walk at a node; what is left on the stack from an earlier walk is dropped. -/
def startWalk (k : Kruskal α) (node : Nat) : Kruskal α :=
  let k := { k with stack := [] }
  { k with stack := node :: k.stack }

/-- Makes one node the parent of another, which waits for its own neighbours then. -/
def hang (k : Kruskal α) (child node : Nat) : Kruskal α :=
  { k with
    parents := k.parents.setIfInBounds child node
    depths := k.depths.setIfInBounds child (k.depth node + 1)
    stack := child :: k.stack }

/-- Hangs all neighbours of the next waiting node below it, except its own parent. -/
def rootStep (k : Kruskal α) : Option (Kruskal α) :=
  match k.stack with
  | [] => none
  | node :: waiting =>
      let children := (k.treeNeighbours node).filter (· != k.parent node)
      some (children.foldl (fun k child => k.hang child node) { k with stack := waiting })

/-- Roots the tree. -/
def rootTree (k : Kruskal α) : Kruskal α :=
  let k := k.listNeighbours
  let k :=
    { k with
      parents := k.parents.setIfInBounds root root
      depths := k.depths.setIfInBounds root 0 }
  iterate rootStep k.tree.order (k.startWalk root)

/-- The cost of a tree edge that counts for a path maximum; a mandatory edge is never replaced. -/
def replaceableCost (g : GraphVar) (k : Kruskal α) (a b : Nat) : α :=
  if g.isMandatory a b then Scalar.bottom else k.costs.cost a b

/-- The maximum on the path from a source to a node extended by one edge. -/
def extendPath (g : GraphVar) (source node : Nat) (k : Kruskal α) (next : Nat) : Kruskal α :=
  let maximum := Scalar.larger (k.pathMaxima.entry source node Scalar.bottom)
    (k.replaceableCost g node next)
  { k with
    pathMaxima := k.pathMaxima.put source next maximum
    jumps := k.jumps.setIfInBounds next node
    stack := next :: k.stack }

/-- Extends the paths through the next waiting node, except back to where it was reached from. -/
def pathStep (g : GraphVar) (source : Nat) (k : Kruskal α) : Option (Kruskal α) :=
  match k.stack with
  | [] => none
  | node :: waiting =>
      let onward := (k.treeNeighbours node).filter (· != k.jump node)
      some (onward.foldl (extendPath g source node) { k with stack := waiting })

/-- Computes the maxima on all paths from a source. -/
def pathMaximaFrom (g : GraphVar) (k : Kruskal α) (source : Nat) : Kruskal α :=
  let k :=
    { k with
      pathMaxima := k.pathMaxima.put source source Scalar.bottom
      jumps := k.jumps.setIfInBounds source source }
  iterate (pathStep g source) k.tree.order (k.startWalk source)

/-- Computes the maxima on all paths. -/
def computePathMaxima (g : GraphVar) (k : Kruskal α) : Kruskal α :=
  (List.range' 1 (k.tree.order - 1)).foldl (pathMaximaFrom g) k

/-- One step of a climb; the node is given a shortcut to where the climb continues. -/
def climbStep (state : Kruskal α × Nat) : Option (Kruskal α × Nat) :=
  let (k, node) := state
  if k.jump node = node then none
  else
    let next := k.jump (k.jump node)
    some ({ k with jumps := k.jumps.setIfInBounds node next }, next)

/-- The topmost ancestor of a node across contracted tree edges. -/
def climb (k : Kruskal α) (node : Nat) : Kruskal α × Nat :=
  iterate climbStep k.tree.order (k, node)

/-- Contracts the edge above the deeper of two nodes, which gets the cost as its replacement. -/
def contractStep (cost : α) (state : Kruskal α × Nat × Nat) : Option (Kruskal α × Nat × Nat) :=
  let (k, first, second) := state
  if first = second then none
  else
    let (first, second) :=
      if k.depth first < k.depth second then (second, first) else (first, second)
    let k :=
      { k with
        replacements := k.replacements.setIfInBounds first cost
        jumps := k.jumps.setIfInBounds first (k.parent first) }
    let (k, top) := k.climb first
    some (k, top, second)

/-- Gives all tree edges below an edge outside of the tree its cost, except contracted ones. -/
def coverPath (k : Kruskal α) (edge : Edge) : Kruskal α :=
  let cost := k.costs.cost edge.1 edge.2
  let (k, first) := k.climb edge.1
  let (k, second) := k.climb edge.2
  (iterate (contractStep cost) k.tree.order (k, first, second)).1

/-- Finds the replacement of every tree edge.  The edges outside of the tree come by increasing
cost, so the first one around a tree edge is the cheapest. -/
def computeReplacements (k : Kruskal α) : Kruskal α :=
  let k :=
    { k with
      replacements := Array.replicate k.replacements.size Ranked.top
      jumps := Array.range k.jumps.size }
  k.nonTreeEdges.foldl coverPath k

/-- Whether a marginal cost lifts the bound above a budget.  An infinite one means that there is
no one-tree at all. -/
def exceeds (bound marginal budget : α) : Bool :=
  marginal == Ranked.top || decide (budget < bound + marginal)

namespace Analysis

/-- Drops the decisions of an earlier analysis. -/
def clear (s : Analysis α) : Analysis α :=
  { s with
    marginals := s.marginals.fill Ranked.top
    toRemove := []
    toEnforce := [] }

/-- Records the marginal cost of an edge outside of the one-tree. -/
def noteOutside (s : Analysis α) (bound budget : α) (edge : Edge) (marginal : α) : Analysis α :=
  { s with
    marginals := s.marginals.putBoth edge.1 edge.2 marginal
    toRemove := if exceeds bound marginal budget then edge :: s.toRemove else s.toRemove }

/-- Records the marginal cost of an edge of the one-tree. -/
def noteInside (s : Analysis α) (bound budget : α) (edge : Edge) (marginal : α) : Analysis α :=
  { s with
    marginals := s.marginals.putBoth edge.1 edge.2 marginal
    toEnforce := if exceeds bound marginal budget then edge :: s.toEnforce else s.toEnforce }

end Analysis

/-- The rise of the bound when an expense replaces the most expensive replaceable edge. -/
def inclusionCost (cost maximum : α) : α :=
  if maximum == Scalar.bottom then Ranked.top else cost - maximum

/-- Analyses an edge outside of the tree and away from the designated node. -/
def analyseNonTree (k : Kruskal α) (budget : α) (s : Analysis α) (edge : Edge) : Analysis α :=
  let maximum := k.pathMaxima.entry edge.1 edge.2 Scalar.bottom
  s.noteOutside k.bound budget edge (inclusionCost (k.costs.cost edge.1 edge.2) maximum)

/-- Analyses the tree edge between a node and its parent. -/
def analyseParentEdge (g : GraphVar) (k : Kruskal α) (budget : α) (s : Analysis α) (node : Nat) :
    Analysis α :=
  let parent := k.parent node
  if g.isMandatory node parent then s
  else
    let replacement := k.replacements.getD node Ranked.top
    s.noteInside k.bound budget (node, parent) (replacement - k.costs.cost node parent)

/-- The most expensive replaceable edge of the designated node in the one-tree, and its cheapest
edge outside of the one-tree. -/
def designatedExtremes (g : GraphVar) (k : Kruskal α) : α × α :=
  (g.upper.successors OneTree.designated).toList.foldl
    (fun (chosen, unchosen) node =>
      let cost := k.costs.cost OneTree.designated node
      if k.tree.contains OneTree.designated node then
        if g.isMandatory OneTree.designated node then (chosen, unchosen)
        else (Scalar.larger chosen cost, unchosen)
      else (chosen, Scalar.smaller unchosen cost))
    (Scalar.bottom, Ranked.top)

/-- Analyses an edge of the designated node. -/
def analyseDesignated (g : GraphVar) (k : Kruskal α) (budget : α) (extremes : α × α)
    (s : Analysis α) (node : Nat) : Analysis α :=
  let edge := (OneTree.designated, node)
  let cost := k.costs.cost OneTree.designated node
  if g.isMandatory OneTree.designated node then s
  else if k.tree.contains OneTree.designated node then
    s.noteInside k.bound budget edge (extremes.2 - cost)
  else s.noteOutside k.bound budget edge (inclusionCost cost extremes.1)

/-- Analyses all edges; the tree has to be rooted, with path maxima and replacements. -/
def analyse (g : GraphVar) (k : Kruskal α) (budget : α) : Analysis α :=
  let s := k.analysis.clear
  let s := k.nonTreeEdges.foldl (analyseNonTree k budget) s
  let s := (List.range' 2 (k.tree.order - 2)).foldl (analyseParentEdge g k budget) s
  (g.upper.successors OneTree.designated).toList.foldl
    (analyseDesignated g k budget (designatedExtremes g k)) s

/-- Roots the tree and computes its path maxima and replacements. -/
def prepare (g : GraphVar) (k : Kruskal α) : Kruskal α :=
  (k.rootTree.computePathMaxima g).computeReplacements

/-- Whether the analysis stays inside of its tables and of the graph. -/
def analysable (g : GraphVar) (k : Kruskal α) : Bool :=
  decide (2 ≤ k.tree.order) && decide (0 < g.order) &&
    (decide (k.tree.order ≤ 2) || decide (k.tree.order ≤ g.order)) &&
    (g.upper.successors OneTree.designated).toList.all fun node =>
      decide (node < k.tree.order) ||
        (k.tree.contains OneTree.designated node && g.isMandatory OneTree.designated node)

/-- The number of edges that were excluded and that were enforced. -/
structure Pruned where
  removed : Nat := 0
  enforced : Nat := 0
  deriving DecidableEq, Repr, Inhabited

/-- Excludes edges; answers how many were possible before. -/
def removeAll : List Edge → Attempt GraphVar Nat
  | [] => return 0
  | (a, b) :: edges => do
      let changed ← GraphVar.removeEdge a b
      return (if changed then 1 else 0) + (← removeAll edges)

/-- Enforces edges; answers how many were not mandatory before. -/
def enforceAll : List Edge → Attempt GraphVar Nat
  | [] => return 0
  | (a, b) :: edges => do
      let changed ← GraphVar.enforceEdge a b
      return (if changed then 1 else 0) + (← enforceAll edges)

/-- Prunes the graph on which the one-tree was computed against a budget. -/
def prune (budget : α) : Attempt (Posted (Kruskal α) GraphVar) Pruned := do
  let ⟨k, g⟩ ← get
  if !k.analysable g then throw (.fault .indexOutOfRange)
  let k := k.prepare g
  Posted.update fun _ => { k with analysis := k.analyse g budget }
  let decisions := (← get).propagator.analysis
  let removed ← Posted.onDomains (removeAll decisions.toRemove.reverse)
  let enforced ← Posted.onDomains (enforceAll decisions.toEnforce.reverse)
  return { removed, enforced }

end Kruskal

end GraphInterval
