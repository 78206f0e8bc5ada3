import GraphInterval.Channel
import GraphInterval.Connectivity
import GraphInterval.Degree
import GraphInterval.GraphVar.Guarded
import GraphInterval.Statistics
import GraphInterval.Tour.Relaxation
import GraphInterval.Transitivity

/-!
# Sessions

A session is the host of propagators on one graph variable.  It posts
constraints on the graph, tells every propagator which events it has not seen,
runs the propagators that ask for it, and backtracks the domains together with
the propagators.
-/

namespace GraphInterval

/-- A constraint on a graph, as a caller describes it. -/
inductive Constraint where
  | transitive
  | connected
  | degreeAtMost (orientation : Orientation) (bound : DegreeBound)
  deriving Repr, Inhabited

/-- A propagator that needs no other domain than the graph. -/
inductive Propagator where
  | transitivity (state : Transitivity)
  | connectivity (state : Connectivity)
  | degree (state : DegreeLimit)
  deriving Inhabited

namespace Propagator

abbrev Run := Attempt (Posted Propagator GraphVar)

/-- Posts a constraint on a graph. -/
def make (g : GraphVar) : Constraint → Except SetupError Propagator
  | .transitive => .ok (transitivity {})
  | .connected => .ok (connectivity (Connectivity.make g))
  | .degreeAtMost orientation bound => (DegreeLimit.make orientation bound g).map degree

def name : Propagator → String
  | transitivity _ => Transitivity.name
  | connectivity _ => Connectivity.name
  | degree _ => DegreeLimit.name

def priority : Propagator → Priority
  | transitivity _ => Transitivity.priority
  | connectivity _ => Connectivity.priority
  | degree _ => DegreeLimit.priority

def counters : Propagator → Counters
  | transitivity state => state.counters
  | connectivity state => state.counters
  | degree state => state.counters

def notify (event : Event) : Propagator → Decision
  | transitivity state => state.notify event
  | connectivity state => state.notify event
  | degree state => state.notify event

/-- Propagates the whole graph. -/
def propagateFromScratch : Run Unit := do
  match (← get).propagator with
  | transitivity state =>
      Posted.wrapped transitivity Transitivity.propagateFromScratch state
  | connectivity state =>
      Posted.wrapped connectivity Connectivity.propagateFromScratch state
  | degree state => Posted.wrapped degree DegreeLimit.propagateFromScratch state

/-- Propagates the changes since the last propagation, where a propagator can tell them. -/
def propagate : Run Unit := do
  match (← get).propagator with
  | transitivity state => Posted.wrapped transitivity Transitivity.propagate state
  | _ => propagateFromScratch

/-- Adjusts to a graph that was restored to an earlier state. -/
def synchronise (g : GraphVar) : Propagator → Propagator
  | transitivity state => transitivity (state.synchronise g)
  | other => other

def entailment (g : GraphVar) : Propagator → Entailment
  | transitivity _ => Transitivity.entailment g
  | connectivity _ => Connectivity.entailment g
  | degree state => state.entailment g

end Propagator

/-- Domains with a graph among them that are checkpointed together. -/
class GraphHost (δ : Type) where
  graph : δ → GraphVar
  withGraph : δ → GraphVar → δ
  mark : δ → δ
  synchronise : Nat → Attempt δ Unit

instance : GraphHost GraphVar where
  graph g := g
  withGraph _ g := g
  mark := GraphVar.mark
  synchronise := GraphVar.synchronise

instance : GraphHost ChannelDomains where
  graph := ChannelDomains.graph
  withGraph d graph := { d with graph }
  mark := ChannelDomains.mark
  synchronise := ChannelDomains.synchronise

instance : GraphHost TourDomains where
  graph := TourDomains.graph
  withGraph d graph := { d with graph }
  mark := TourDomains.mark
  synchronise := TourDomains.synchronise

structure Session (δ : Type) where
  domains : δ
  propagators : Array Propagator := #[]
  /-- For every propagator, how many events of the log it was told about. -/
  seen : Array Nat := #[]
  deriving Inhabited

namespace Session

variable {δ : Type} [GraphHost δ]

def graph (s : Session δ) : GraphVar := GraphHost.graph s.domains

/-- Runs a computation on all domains. -/
def onDomains {α : Type} (attempt : Attempt δ α) : Attempt (Session δ) α :=
  attempt.within Session.domains fun s domains => { s with domains }

/-- Runs a computation on the graph. -/
def onGraph {α : Type} (attempt : Attempt GraphVar α) : Attempt (Session δ) α :=
  attempt.within Session.graph fun s graph =>
    { s with domains := GraphHost.withGraph s.domains graph }

/-- Posts a constraint; a refused one leaves no propagator behind. -/
def post (s : Session δ) (constraint : Constraint) :
    Except SetupError (Propagator × Session δ) := do
  let propagator ← Propagator.make s.graph constraint
  return (propagator,
    { s with propagators := s.propagators.push propagator, seen := s.seen.push 0 })

def propagator (index : Nat) : Attempt (Session δ) Propagator := do
  match (← get).propagators[index]? with
  | some propagator => return propagator
  | none => throw (.fault .indexOutOfRange)

/-- Runs a propagation of one propagator. -/
def propagation (index : Nat) (run : Propagator.Run Unit) : Attempt (Session δ) Unit := do
  let propagator ← propagator index
  run.within (fun s => { propagator, domains := s.graph }) fun s after =>
    { s with
      domains := GraphHost.withGraph s.domains after.domains
      propagators := s.propagators.setIfInBounds index after.propagator }

/-- Notes that a propagator was told about all events. -/
def catchUp (index : Nat) (s : Session δ) : Session δ :=
  { s with seen := s.seen.setIfInBounds index s.graph.numEvents }

def propagateFromScratch (index : Nat) : Attempt (Session δ) Unit :=
  (propagation index Propagator.propagateFromScratch).ensuring (catchUp index)

def propagate (index : Nat) : Attempt (Session δ) Unit :=
  (propagation index Propagator.propagate).ensuring (catchUp index)

/-- Tells a propagator about an event. -/
def notify (index : Nat) (event : Event) : Attempt (Session δ) Decision :=
  return (← propagator index).notify event

/-- The events that a propagator was not told about. -/
def unseen (s : Session δ) (index : Nat) : List Event :=
  s.graph.events.drop (s.seen.getD index 0)

/-- Tells a propagator about all new events and runs it if it asks for that; answers whether it
was run.  Events that it was told about must not have been retracted without its knowledge. -/
def run (index : Nat) : Attempt (Session δ) Bool := do
  let propagator ← propagator index
  let s ← get
  if s.graph.numEvents < s.seen.getD index 0 then throw (.fault .indexOutOfRange)
  if s.unseen index |>.any fun event => propagator.notify event == .enqueue then
    propagate index
    return true
  else
    modify (catchUp index)
    return false

/-- Runs every propagator once on the whole graph; answers whether the graph changed. -/
def round : Attempt (Session δ) Bool := do
  let s ← get
  (List.range s.propagators.size).forM fun index =>
    propagation index Propagator.propagateFromScratch
  return (← get).graph.numEvents != s.graph.numEvents

/-- Runs all propagators on the whole graph until nothing changes.  Every further round decides a
node or an edge, which limits their number. -/
def fixpoint : Attempt (Session δ) Unit := do
  let order := (← get).graph.order
  repeatWhile round (2 * (order + order * order) + 1)

/-- Makes a checkpoint; answers the number of checkpoints. -/
def mark : Attempt (Session δ) Nat := do
  modify fun s => { s with domains := GraphHost.mark s.domains }
  return (← get).graph.checkpoint

/-- Restores the domains and adjusts the propagators; answers the number of checkpoints. -/
def backtrack (target : Nat) : Attempt (Session δ) Nat := do
  onDomains (GraphHost.synchronise target)
  modify fun s =>
    { s with
      propagators := s.propagators.map (Propagator.synchronise s.graph)
      seen := s.seen.map (min · s.graph.numEvents) }
  return (← get).graph.checkpoint

/-- Restores the graph alone; answers the number of its checkpoints. -/
def synchroniseGraph (target : Nat) : Attempt (Session δ) Nat := do
  onGraph (GraphVar.synchronise target)
  return (← get).graph.checkpoint

def entailment (index : Nat) : Attempt (Session δ) Entailment := do
  let propagator ← propagator index
  return propagator.entailment (← get).graph

/-- The names and counters of all propagators. -/
def reports (s : Session δ) : List (String × Counters) :=
  s.propagators.toList.map fun propagator => (propagator.name, propagator.counters)

end Session

/-- The constraints of a standard set of statistics: transitive, connected, degree at most two. -/
def standardConstraints (g : GraphVar) : List Constraint :=
  let orientation := if g.directed then Orientation.successors else Orientation.neighbours
  [.transitive, .connected, .degreeAtMost orientation (.uniform 2)]

end GraphInterval
