import GraphInterval.SparseSet
import GraphInterval.Trail

/-!
# Value sets

A checkpointed domain over the values `0..capacity` that may have holes, for
the successor of a node.  The trail keeps the removed values; going back puts
them in again, the one removed last first.
-/

namespace GraphInterval

structure Values where
  members : SparseSet
  /-- The removed values. -/
  trail : Trail Nat
  deriving Inhabited

namespace Values

/-- The domain of the given values, unless there are none; each has to lie below `capacity`. -/
def make (capacity : Nat) (values : List Nat) : Except Failure Values :=
  match (SparseSet.empty capacity).tryInsertAll values with
  | .error fault => .error (.fault fault)
  | .ok members => if members.isEmpty then .error .wipeout else .ok { members, trail := {} }

def contains (d : Values) (value : Nat) : Bool := d.members.contains value

/-- The number of values. -/
def size (d : Values) : Nat := d.members.size

def isFixed (d : Values) : Bool := d.size == 1

/-- The value of a fixed variable. -/
def value? (d : Values) : Option Nat := if d.isFixed then d.members.toList.head? else none

/-- Takes one value out and records it. -/
def drop (d : Values) (value : Nat) : Values :=
  { members := d.members.erase value, trail := d.trail.push value }

/-- Removes a value; answers whether it was there. -/
def remove (value : Nat) : Attempt Values Bool := fun d =>
  if !d.contains value then .ok false d
  else if d.size = 1 then .error .wipeout d
  else .ok true (d.drop value)

/-- Removes every other value; answers whether there was one. -/
def assign (value : Nat) : Attempt Values Bool := fun d =>
  if !d.contains value then .error .wipeout d
  else if d.size = 1 then .ok false d
  else .ok true ((d.members.toList.filter (· != value)).foldl drop d)

/-- Makes a checkpoint. -/
def mark (d : Values) : Values := { d with trail := d.trail.mark }

/-- Restores the values at the time a checkpoint was left behind. -/
def synchronise (target : Nat) : Attempt Values Unit := fun d =>
  match d.trail.synchronise target with
  | .error fault => .error (.fault fault) d
  | .ok (undone, trail) => .ok () { members := undone.foldl SparseSet.insert d.members, trail }

end Values

end GraphInterval
