import GraphInterval.Fault

/-!
# Trails

A trail is a stack of entries divided by checkpoints.  Returning to a
checkpoint hands back the entries pushed since, newest first, so that their
owner can undo them.  The entries that remain are in the order in which they
were pushed, which makes a trail an event log as well.
-/

namespace GraphInterval

structure Trail (α : Type) where
  /-- The entries in the order of their insertion. -/
  entries : Array α := #[]
  /-- `delimiters[i]` is the number of entries when checkpoint `i + 1` was made. -/
  delimiters : Array Nat := #[]
  deriving Inhabited, Repr

namespace Trail

variable {α : Type}

def empty : Trail α := {}

/-- The number of checkpoints. -/
def checkpoint (t : Trail α) : Nat := t.delimiters.size

def push (t : Trail α) (entry : α) : Trail α := { t with entries := t.entries.push entry }

/-- Makes a checkpoint. -/
def mark (t : Trail α) : Trail α := { t with delimiters := t.delimiters.push t.entries.size }

/-- Returns to the state in which checkpoint `target + 1` was made; answers the entries undone,
newest first. -/
def synchronise (t : Trail α) (target : Nat) : Except Fault (List α × Trail α) :=
  if target < t.checkpoint then
    let length := t.delimiters.getD target 0
    .ok ((t.entries.toList.drop length).reverse,
      { entries := t.entries.take length, delimiters := t.delimiters.take target })
  else .error (.unreachableCheckpoint target t.checkpoint)

end Trail

end GraphInterval
