/-!
# Failures and attempts

A computation on domains stops early for one of three reasons: a domain would
be left without values, a constraint is found to have no solution, or the
caller broke the contract of an operation.  The state that was reached is kept
in every case, because the changes made before the failure stay in the domains
until the caller backtracks.
-/

namespace GraphInterval

/-- A call that no caller may make. -/
inductive Fault where
  /-- An element was added to a set whose universe does not hold it. -/
  | outsideUniverse (element size : Nat)
  /-- The state of a checkpoint that does not exist was asked for. -/
  | unreachableCheckpoint (target current : Nat)
  /-- A monitor was frozen twice. -/
  | alreadyFrozen
  /-- A monitor was replayed outside of a window. -/
  | notFrozen
  /-- A node was to be dropped while it had edges. -/
  | incidentEdges (node : Nat)
  /-- A table was read beyond its end. -/
  | indexOutOfRange
  /-- A natural number was lowered below zero. -/
  | belowZero
  /-- A finished one-tree does not have as many edges as nodes. -/
  | incompleteOneTree
  deriving DecidableEq, Repr, Inhabited

/-- The diagnostic of a fault, for those that have one. -/
def Fault.message : Fault → Option String
  | .outsideUniverse element size =>
      some s!"element {element} is outside of the universe of size {size}"
  | .unreachableCheckpoint target current =>
      some s!"cannot synchronise to checkpoint {target} from checkpoint {current}"
  | .alreadyFrozen => some "the monitor is already frozen"
  | .notFrozen => some "events can only be replayed while the monitor is frozen"
  | .incidentEdges node => some s!"node {node} still has incident edges"
  | .indexOutOfRange => none
  | .belowZero => none
  | .incompleteOneTree => none

/-- Why a computation on domains stopped. -/
inductive Failure where
  /-- A change would leave a domain without any value. -/
  | wipeout
  /-- A constraint admits no solution within the domains. -/
  | conflict (detector : String)
  /-- The contract of an operation was broken. -/
  | fault (cause : Fault)
  deriving DecidableEq, Repr, Inhabited

/-- A computation on a state that may stop early; the state is kept either way. -/
abbrev Attempt (σ α : Type) := EStateM Failure σ α

namespace Attempt

/-- Runs a computation on a part of the state. -/
def within {σ τ α : Type} (part : σ → τ) (update : σ → τ → σ) (attempt : Attempt τ α) :
    Attempt σ α := fun state =>
  match attempt (part state) with
  | .ok value inner => .ok value (update state inner)
  | .error failure inner => .error failure (update state inner)

/-- Runs a computation and then adjusts the state, also if the computation stopped early. -/
def ensuring {σ α : Type} (attempt : Attempt σ α) (finish : σ → σ) : Attempt σ α := fun state =>
  match attempt state with
  | .ok value next => .ok value (finish next)
  | .error failure next => .error failure (finish next)

/-- Stops with a fault unless the check succeeds. -/
def guardWith {σ : Type} (check : Except Fault Unit) : Attempt σ Unit :=
  match check with
  | .ok () => pure ()
  | .error fault => throw (.fault fault)

end Attempt

end GraphInterval
