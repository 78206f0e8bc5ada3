import GraphInterval.Trail

/-!
# Integer intervals

A checkpointed domain `lower..upper` for the cost of a tour.  The trail keeps
the bounds before every change; going back restores the oldest bounds that are
undone.
-/

namespace GraphInterval

/-- How the domain of an integer variable changed. -/
inductive BoundEvent where
  /-- The variable became fixed. -/
  | assign
  | lowerBound
  | upperBound
  /-- A value strictly between the bounds was removed. -/
  | removal
  deriving DecidableEq, Repr, Inhabited

structure Bounds where
  lower : Int
  upper : Int
  /-- The bounds before every change. -/
  trail : Trail (Int × Int)
  deriving Inhabited

namespace Bounds

/-- The interval `lower..upper`, unless it is empty. -/
def make (lower upper : Int) : Except Failure Bounds :=
  if upper < lower then .error .wipeout else .ok { lower, upper, trail := {} }

def isFixed (b : Bounds) : Bool := b.lower == b.upper

/-- The value of a fixed variable. -/
def value? (b : Bounds) : Option Int := if b.isFixed then some b.lower else none

/-- Records the bounds before a change. -/
def record (b : Bounds) : Bounds := { b with trail := b.trail.push (b.lower, b.upper) }

/-- Raises the lower bound; answers whether it changed. -/
def raiseLower (bound : Int) : Attempt Bounds Bool := fun b =>
  if b.upper < bound then .error .wipeout b
  else if bound ≤ b.lower then .ok false b
  else .ok true { b.record with lower := bound }

/-- Lowers the upper bound; answers whether it changed. -/
def lowerUpper (bound : Int) : Attempt Bounds Bool := fun b =>
  if bound < b.lower then .error .wipeout b
  else if b.upper ≤ bound then .ok false b
  else .ok true { b.record with upper := bound }

/-- Makes a checkpoint. -/
def mark (b : Bounds) : Bounds := { b with trail := b.trail.mark }

/-- Restores the bounds at the time a checkpoint was left behind. -/
def synchronise (target : Nat) : Attempt Bounds Unit := fun b =>
  match b.trail.synchronise target with
  | .error fault => .error (.fault fault) b
  | .ok (undone, trail) =>
      let (lower, upper) := undone.getLastD (b.lower, b.upper)
      .ok () { lower, upper, trail }

end Bounds

end GraphInterval
