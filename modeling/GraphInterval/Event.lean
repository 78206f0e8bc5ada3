import GraphInterval.Fault

/-!
# Events and the monitors that replay them

Every change of a graph variable is an event in an ordered log, which after
backtracking holds the changes that were not undone.  A monitor is the view
that one propagator has on the log.  In a window between freezing and
unfreezing it replays the events that happened after its last window and
before the freeze; unfreezing skips what happened in the window, so a
propagator never sees its own changes as news.
-/

namespace GraphInterval

/-- A change of a graph variable. -/
inductive Event where
  /-- An edge became mandatory. -/
  | edgeEnforced (a b : Nat)
  /-- An edge stopped being possible. -/
  | edgeRemoved (a b : Nat)
  /-- A node became mandatory. -/
  | nodeEnforced (node : Nat)
  /-- A node stopped being possible. -/
  | nodeRemoved (node : Nat)
  deriving DecidableEq, Repr, Inhabited

inductive EventKind where
  | edgeEnforced
  | edgeRemoved
  | nodeEnforced
  | nodeRemoved
  deriving DecidableEq, Repr, Inhabited

def Event.kind : Event → EventKind
  | edgeEnforced _ _ => .edgeEnforced
  | edgeRemoved _ _ => .edgeRemoved
  | nodeEnforced _ => .nodeEnforced
  | nodeRemoved _ => .nodeRemoved

namespace EventKind

def all : List EventKind := [edgeEnforced, edgeRemoved, nodeEnforced, nodeRemoved]

/-- The kinds of the events that concern an edge. -/
def edgeEvents : List EventKind := [edgeEnforced, edgeRemoved]

end EventKind

/-- Positions in an event log. -/
structure Monitor where
  /-- The first event that was not observed yet. -/
  cursor : Nat := 0
  /-- The end of the events that the current window replays. -/
  frozenAt : Option Nat := none
  deriving DecidableEq, Repr, Inhabited

namespace Monitor

/-- Opens a window on a log of the given length. -/
def freeze (m : Monitor) (length : Nat) : Except Fault Monitor :=
  match m.frozenAt with
  | none => .ok { m with frozenAt := some length }
  | some _ => .error .alreadyFrozen

/-- The events of the current window that are of one of the given kinds, in the order of the log. -/
def replay (m : Monitor) (log : List Event) (kinds : List EventKind) : Except Fault (List Event) :=
  match m.frozenAt with
  | none => .error .notFrozen
  | some stop =>
      if stop ≤ log.length then
        .ok (((log.take stop).drop m.cursor).filter fun event => kinds.contains event.kind)
      else .error .indexOutOfRange

/-- Closes the window on a log of the given length and skips all events in it. -/
def unfreeze (_ : Monitor) (length : Nat) : Monitor := { cursor := length, frozenAt := none }

/-- Forgets the events that were undone from a log, which now has the given length. -/
def synchronise (m : Monitor) (length : Nat) : Monitor :=
  { cursor := min m.cursor length, frozenAt := none }

end Monitor

end GraphInterval
