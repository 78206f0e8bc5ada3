import GraphInterval.Graph.Guarded
import GraphInterval.GraphVar.Basic

/-!
# Graph variables for unchecked callers

The construction of a graph variable from lists of nodes and edges, and the
mutations and queries whose first node may be any number.
-/

namespace GraphInterval

namespace GraphVar

/-- The bounds of a graph variable as a caller lists them.  A missing list of edges stands for the
complete graph in the upper bound and for no edge in the lower one. -/
structure Spec where
  order : Nat
  directed : Bool := false
  upperNodes : Option (List Nat) := none
  upperEdges : Option (List Edge) := none
  lowerOrder : Option Nat := none
  lowerDirected : Option Bool := none
  lowerNodes : Option (List Nat) := none
  lowerEdges : Option (List Edge) := none
  deriving Inhabited

/-- Whether no bound is listed at all. -/
def Spec.isUnconstrained (s : Spec) : Bool :=
  s.upperEdges.isNone && s.lowerEdges.isNone && s.lowerNodes.isNone

/-- The upper bound: the listed nodes, or else all, then the listed edges. -/
def Spec.upper (s : Spec) : Except Fault Graph :=
  match s.upperEdges with
  | none => .ok (Graph.complete s.order s.directed)
  | some edges => do
      let nodes := s.upperNodes.getD (List.range s.order)
      Graph.Guarded.addEdges
        (← Graph.Guarded.addNodes (Graph.empty s.order s.directed) nodes) edges

/-- The lower bound: the listed nodes, then the listed edges. -/
def Spec.lower (s : Spec) : Except Fault Graph := do
  let start := Graph.empty (s.lowerOrder.getD s.order) (s.lowerDirected.getD s.directed)
  Graph.Guarded.addEdges
    (← Graph.Guarded.addNodes start (s.lowerNodes.getD [])) (s.lowerEdges.getD [])

/-- The variable between the listed bounds; `none` if they are not nested. -/
def Spec.interval? (s : Spec) : Except Fault (Option GraphVar) :=
  if s.isUnconstrained then .ok (some (unconstrained s.order s.directed))
  else do
    let upper ← s.upper
    let lower ← s.lower
    return between? lower upper

namespace Guarded

/-- Stops with a fault if a node has no neighbourhood. -/
def checkNode (node : Nat) : Attempt GraphVar Unit := do
  let g ← get
  Attempt.guardWith (g.upper.checkNode node)

/-- Makes an edge mandatory. -/
def enforceEdge (a b : Nat) : Attempt GraphVar Bool := do
  checkNode a
  GraphVar.enforceEdge a b

/-- Excludes an edge. -/
def removeEdge (a b : Nat) : Attempt GraphVar Bool := do
  checkNode a
  GraphVar.removeEdge a b

/-- Whether an edge is mandatory and whether it is possible. -/
def edgeStatus (a b : Nat) : Attempt GraphVar (Bool × Bool) := do
  checkNode a
  let g ← get
  return (g.isMandatory a b, g.isPotential a b)

end Guarded

end GraphVar

end GraphInterval
