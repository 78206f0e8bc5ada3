import GraphInterval.Iterate
import GraphInterval.Propagation

/-!
# Connected graphs

The constraint that the graph has one connected component, where the edges of
a directed graph are followed both ways.  The graph without nodes counts as
connected.  Nodes out of reach of the mandatory ones are removed, and a node
that separates two mandatory ones becomes mandatory.
-/

namespace GraphInterval

/-- A search through the possible edges of a graph variable. -/
structure Search where
  reached : Array Bool
  /-- Reached nodes whose edges were not followed yet, the last one first. -/
  frontier : List Nat := []
  deriving Inhabited

namespace Search

def hasReached (s : Search) (node : Nat) : Bool := s.reached.getD node false

/-- Marks a node, and queues it if it is new. -/
def visit (s : Search) (node : Nat) : Search :=
  if s.hasReached node then s
  else { reached := s.reached.setIfInBounds node true, frontier := node :: s.frontier }

/-- The nodes joined to a node by a possible edge in either direction. -/
def adjacent (g : GraphVar) (node : Nat) : List Nat :=
  (g.upper.successors node).toList ++ (g.upper.predecessors node).toList

/-- Follows the edges of the node that was reached last, except to the excluded node. -/
def step (g : GraphVar) (excluded : Option Nat) (s : Search) : Option Search :=
  match s.frontier with
  | [] => none
  | node :: frontier =>
      some (((adjacent g node).filter (some · != excluded)).foldl visit { s with frontier })

/-- Reaches everything that is joined to a root by paths around the excluded node.  Marks and
frontier of an earlier search are dropped first. -/
def explore (g : GraphVar) (root : Nat) (excluded : Option Nat) (s : Search) : Search :=
  let start : Search :=
    { reached := Array.replicate s.reached.size false, frontier := [] }
  iterate (step g excluded) g.order (start.visit root)

/-- Whether every mandatory node was reached. -/
def coversMandatory (g : GraphVar) (s : Search) : Bool := g.lower.nodes.toList.all s.hasReached

end Search

structure Connectivity where
  search : Search
  /-- The nodes that are being removed or examined. -/
  candidates : List Nat := []
  numPropagations : Nat := 0
  numNodesRemoved : Nat := 0
  numNodesEnforced : Nat := 0
  deriving Inhabited

namespace Connectivity

abbrev Run := Attempt (Posted Connectivity GraphVar)

def name : String := "Connected"

def priority : Priority := .medium

def counters (c : Connectivity) : Counters :=
  [("num_propagations", c.numPropagations),
    ("num_nodes_removed", c.numNodesRemoved),
    ("num_nodes_enforced", c.numNodesEnforced)]

/-- Posts the constraint. -/
def make (g : GraphVar) : Connectivity :=
  { search := { reached := Array.replicate g.order false } }

/-- A mandatory edge alone has no consequence; its endpoints are reported on their own. -/
def notify (_ : Connectivity) (event : Event) : Decision :=
  .enqueueIf (event.kind != .edgeEnforced)

def candidatesBuffer : Buffer Connectivity Nat where
  content := candidates
  store c candidates := { c with candidates }

/-- Searches the graph and keeps the marks. -/
def explore (root : Nat) (excluded : Option Nat) : Run Search := do
  let ⟨c, g⟩ ← get
  let search := c.search.explore g root excluded
  Posted.update fun c => { c with search }
  return search

/-- Removes a node that is out of reach. -/
def removeUnreached (node : Nat) : Run Unit := do
  let _ ← Posted.onDomains (GraphVar.removeNode node)
  Posted.update fun c => { c with numNodesRemoved := c.numNodesRemoved + 1 }

/-- Makes a node mandatory if the mandatory nodes are not joined without it. -/
def enforceSeparator (root node : Nat) : Run Unit := do
  let search ← explore root (some node)
  if !search.coversMandatory (← get).domains then
    let _ ← Posted.onDomains (GraphVar.enforceNode node)
    Posted.update fun c => { c with numNodesEnforced := c.numNodesEnforced + 1 }

/-- Removes the nodes out of reach and enforces the separating ones.  Enforcing a separating node
changes no other answer, so a single pass is enough. -/
def propagateFromScratch : Run Unit := do
  Posted.update fun c => { c with numPropagations := c.numPropagations + 1 }
  match (← get).domains.lower.nodes.toList.head? with
  | none => return ()
  | some root =>
      let search ← explore root none
      let g := (← get).domains
      if !search.coversMandatory g then throw (.conflict name)
      Posted.visitEach candidatesBuffer (·.upper.nodes.toList.filter (!search.hasReached ·))
        removeUnreached
      if (← get).domains.lower.nodes.size < 2 then return ()
      Posted.visitEach candidatesBuffer
        (fun g => g.upper.nodes.toList.filter (!g.isMandatoryNode ·)) (enforceSeparator root)

def entailment (g : GraphVar) : Entailment :=
  match g.lower.nodes.toList.head? with
  | none => .ofInstantiated g.isInstantiated
  | some root =>
      let fresh : Search := { reached := Array.replicate g.order false }
      if (fresh.explore g root none).coversMandatory g then .ofInstantiated g.isInstantiated
      else .violated

end Connectivity

end GraphInterval
