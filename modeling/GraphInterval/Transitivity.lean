import GraphInterval.Iterate
import GraphInterval.Propagation

/-!
# Transitive graphs

The constraint that `(a, b)` and `(b, c)` imply `(a, c)` for distinct `a`, `b`
and `c`.  Of the three edges of such a triple, two mandatory ones enforce the
third, and a mandatory and an impossible one remove the remaining premise.

Edges whose status was decided wait on two stacks until their consequences are
drawn.  An edge that a consequence decides is put on a stack in turn, which
happens at most once for every edge, so the number of undecided edges bounds
the work.
-/

namespace GraphInterval

/-- The number of edges that are possible and not mandatory. -/
def GraphVar.numUndecided (g : GraphVar) : Nat := g.upper.numEdges - g.lower.numEdges

structure Transitivity where
  monitor : Monitor := {}
  /-- Mandatory edges whose consequences are pending, the last one first. -/
  enforced : List Edge := []
  /-- Removed edges whose consequences are pending, the last one first. -/
  removed : List Edge := []
  /-- The endpoints of the edges that are being looked at. -/
  incident : List Nat := []
  /-- Whether the next propagation has to look at the whole graph. -/
  fullPassPending : Bool := true
  numFullPropagations : Nat := 0
  numIncrementalPropagations : Nat := 0
  numEdgesEnforced : Nat := 0
  numEdgesRemoved : Nat := 0
  deriving Inhabited

namespace Transitivity

abbrev Run := Attempt (Posted Transitivity GraphVar)

def name : String := "Transitivity"

def priority : Priority := .low

def counters (t : Transitivity) : Counters :=
  [("num_full_propagations", t.numFullPropagations),
    ("num_incremental_propagations", t.numIncrementalPropagations),
    ("num_edges_enforced", t.numEdgesEnforced),
    ("num_edges_removed", t.numEdgesRemoved)]

/-- Only the events of edges are of interest. -/
def notify (_ : Transitivity) (event : Event) : Decision :=
  .enqueueIf (EventKind.edgeEvents.contains event.kind)

def incidentBuffer : Buffer Transitivity Nat where
  content := incident
  store t incident := { t with incident }

/-- Makes an edge mandatory; an edge that was undecided waits for its consequences. -/
def enforce (a b : Nat) : Run Unit := do
  if ← Posted.onDomains (GraphVar.enforceEdge a b) then
    Posted.update fun t =>
      { t with numEdgesEnforced := t.numEdgesEnforced + 1, enforced := (a, b) :: t.enforced }

/-- Excludes an edge; an edge that was undecided waits for its consequences. -/
def remove (a b : Nat) : Run Unit := do
  if ← Posted.onDomains (GraphVar.removeEdge a b) then
    Posted.update fun t =>
      { t with numEdgesRemoved := t.numEdgesRemoved + 1, removed := (a, b) :: t.removed }

/-- Draws the consequences of the mandatory edge `(a, b)` for an edge `(b, c)`. -/
def extendForward (a b c : Nat) : Run Unit := do
  if c = b ∨ c = a then return ()
  let g := (← get).domains
  if g.isMandatory b c then enforce a c
  else if !g.isPotential a c then remove b c

/-- Draws the consequences of the mandatory edge `(a, b)` for an edge `(c, a)`. -/
def extendBackward (a b c : Nat) : Run Unit := do
  if c = b ∨ c = a then return ()
  let g := (← get).domains
  if g.isMandatory c a then enforce c b
  else if !g.isPotential c b then remove c a

/-- Draws the consequences of a mandatory edge. -/
def edgeEnforced (a b : Nat) : Run Unit := do
  if a = b then return ()
  Posted.visitEach incidentBuffer (fun g => (g.upper.successors b).toList) (extendForward a b)
  Posted.visitEach incidentBuffer (fun g => (g.upper.predecessors a).toList) (extendBackward a b)

/-- Draws the consequences of a removed edge: no mandatory edge completes a path around it. -/
def edgeRemoved (a b : Nat) : Run Unit := do
  if a = b then return ()
  Posted.visitEach incidentBuffer (fun g => (g.lower.successors a).toList) fun c => remove c b
  Posted.visitEach incidentBuffer (fun g => (g.lower.predecessors b).toList) fun c => remove a c

/-- Draws the consequences of one waiting edge, mandatory ones first; answers whether one waited. -/
def processNext : Run Bool := do
  let t := (← get).propagator
  match t.enforced, t.removed with
  | (a, b) :: rest, _ =>
      Posted.update fun t => { t with enforced := rest }
      edgeEnforced a b
      return true
  | [], (a, b) :: rest =>
      Posted.update fun t => { t with removed := rest }
      edgeRemoved a b
      return true
  | [], [] => return false

/-- Draws consequences until no edge waits. -/
def filter : Run Unit := do
  let s ← get
  repeatWhile processNext
    (s.propagator.enforced.length + s.propagator.removed.length + s.domains.numUndecided)

/-- Filters, and then skips the events up to now. -/
def filterWindow : Run Unit :=
  filter.ensuring fun s =>
    { s with propagator :=
      { s.propagator with monitor := s.propagator.monitor.unfreeze s.domains.numEvents } }

/-- Puts the edge on the stack that its status calls for. -/
def enqueueEdge (g : GraphVar) (t : Transitivity) (edge : Edge) : Transitivity :=
  if g.isMandatory edge.1 edge.2 then { t with enforced := edge :: t.enforced }
  else if !g.isPotential edge.1 edge.2 then { t with removed := edge :: t.removed }
  else t

/-- All pairs of a possible node and a node of the universe. -/
def candidates (g : GraphVar) : List Edge :=
  g.upper.nodes.toList.flatMap fun a => (List.range g.order).map (a, ·)

/-- Propagates without relying on the monitor. -/
def propagateFromScratch : Run Unit := do
  Posted.update fun t =>
    { t with
      numFullPropagations := t.numFullPropagations + 1
      fullPassPending := false
      enforced := []
      removed := [] }
  let g := (← get).domains
  Posted.update fun t => (candidates g).foldl (enqueueEdge g) t
  filterWindow

/-- Puts the edge of an event on its stack. -/
def enqueueEvent (t : Transitivity) : Event → Transitivity
  | .edgeEnforced a b => { t with enforced := (a, b) :: t.enforced }
  | .edgeRemoved a b => { t with removed := (a, b) :: t.removed }
  | .nodeEnforced _ | .nodeRemoved _ => t

/-- Opens a window of the monitor and puts the edges of its events on the stacks. -/
def openWindow (g : GraphVar) (t : Transitivity) : Except Fault Transitivity := do
  let monitor ← t.monitor.freeze g.numEvents
  let events ← monitor.replay g.events EventKind.edgeEvents
  return events.foldl enqueueEvent { t with monitor, enforced := [], removed := [] }

/-- Propagates the events since the last propagation; after backtracking, everything. -/
def propagate : Run Unit := do
  if (← get).propagator.fullPassPending then propagateFromScratch
  else
    Posted.update fun t =>
      { t with numIncrementalPropagations := t.numIncrementalPropagations + 1 }
    let s ← get
    match openWindow s.domains s.propagator with
    | .error fault => throw (.fault fault)
    | .ok t =>
        Posted.update fun _ => t
        filterWindow

/-- Adjusts to a graph that was restored to an earlier state. -/
def synchronise (g : GraphVar) (t : Transitivity) : Transitivity :=
  { t with monitor := t.monitor.synchronise g.numEvents, fullPassPending := true }

/-- Whether two mandatory edges from `a` imply an edge that is not possible. -/
def isViolatedFrom (g : GraphVar) (a : Nat) : Bool :=
  (g.lower.successors a).toList.any fun b =>
    b != a && (g.lower.successors b).toList.any fun c =>
      c != a && c != b && !g.isPotential a c

def entailment (g : GraphVar) : Entailment :=
  if (List.range g.order).any (isViolatedFrom g) then .violated
  else .ofInstantiated g.isInstantiated

end Transitivity

end GraphInterval
