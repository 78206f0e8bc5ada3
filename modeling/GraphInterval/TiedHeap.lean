import GraphInterval.Fault
import GraphInterval.Iterate
import GraphInterval.Scalar.Basic

/-!
# A priority map that groups ties

A binary heap over the keys `0..n` with values that may be lowered.  Growing a
tree often offers many keys of one extreme value, so the keys that are tied
for the minimum are kept on a stack and handed out in constant time.  Their
entries stay in the binary heap and are discarded when they reach its root.
-/

namespace GraphInterval

structure TiedHeap (α : Type) where
  /-- The last value given to every key. -/
  values : Array α
  /-- The keys of the binary heap, some of which may have been handed out already. -/
  heap : Array Nat
  /-- The index of every key in `heap`. -/
  positions : Array (Option Nat)
  /-- Whether a key is in the map, whatever entries are left in `heap`. -/
  present : Array Bool
  /-- The number of keys in the map. -/
  count : Nat
  /-- Keys whose value is `tiedValue`, the next one to hand out first. -/
  tied : List Nat
  /-- A lower bound on the values in the map. -/
  tiedValue : α
  deriving Inhabited

namespace TiedHeap

variable {α : Type} [Ranked α]

/-- The map without entries over the keys `0..size`. -/
def empty (size : Nat) : TiedHeap α :=
  { values := Array.replicate size Ranked.top
    heap := #[]
    positions := Array.replicate size none
    present := Array.replicate size false
    count := 0
    tied := []
    tiedValue := Ranked.top }

def isEmpty (h : TiedHeap α) : Bool := h.count == 0

def value (h : TiedHeap α) (key : Nat) : α := h.values.getD key Ranked.top

def position (h : TiedHeap α) (key : Nat) : Option Nat := h.positions.getD key none

def contains (h : TiedHeap α) (key : Nat) : Bool := h.present.getD key false

/-- The key at an index of the binary heap. -/
def keyAt (h : TiedHeap α) (index : Nat) : Nat := h.heap.getD index 0

def valueAt (h : TiedHeap α) (index : Nat) : α := h.value (h.keyAt index)

/-- Swaps the entries at two indices of the binary heap. -/
def exchange (h : TiedHeap α) (i j : Nat) : TiedHeap α :=
  let a := h.keyAt i
  let b := h.keyAt j
  { h with
    heap := (h.heap.setIfInBounds i b).setIfInBounds j a
    positions := (h.positions.setIfInBounds b (some i)).setIfInBounds a (some j) }

/-- One step of an entry towards the root. -/
def rise (state : TiedHeap α × Nat) : Option (TiedHeap α × Nat) :=
  let (h, index) := state
  if index = 0 then none
  else
    let parent := (index - 1) / 2
    if h.valueAt parent ≤ h.valueAt index then none
    else some (h.exchange parent index, parent)

/-- Moves the entry at an index towards the root while its parent is larger. -/
def siftUp (h : TiedHeap α) (index : Nat) : TiedHeap α :=
  (iterate rise h.heap.size (h, index)).1

/-- The index of the smallest among an entry and its children. -/
def smallestBelow (h : TiedHeap α) (index : Nat) : Nat :=
  let left := 2 * index + 1
  let right := left + 1
  let smallest :=
    if left < h.heap.size ∧ h.valueAt left < h.valueAt index then left else index
  if right < h.heap.size ∧ h.valueAt right < h.valueAt smallest then right else smallest

/-- One step of an entry towards the leaves. -/
def sink (state : TiedHeap α × Nat) : Option (TiedHeap α × Nat) :=
  let (h, index) := state
  let smallest := h.smallestBelow index
  if smallest = index then none else some (h.exchange smallest index, smallest)

/-- Moves the entry at an index towards the leaves while a child is smaller. -/
def siftDown (h : TiedHeap α) (index : Nat) : TiedHeap α :=
  (iterate sink h.heap.size (h, index)).1

/-- Puts a key of a given value on the stack of tied keys if it belongs there. -/
def noteTie (h : TiedHeap α) (key : Nat) (value : α) : TiedHeap α :=
  if h.isEmpty ∨ value < h.tiedValue then { h with tiedValue := value, tied := [key] }
  else if value == h.tiedValue then { h with tied := key :: h.tied }
  else h

/-- Gives a key a value and marks it as present. -/
def assign (h : TiedHeap α) (key : Nat) (value : α) : TiedHeap α :=
  { h with
    values := h.values.setIfInBounds key value
    present := h.present.setIfInBounds key true
    count := if h.contains key then h.count else h.count + 1 }

/-- Adds an entry at the end of the binary heap. -/
def append (h : TiedHeap α) (key : Nat) : TiedHeap α :=
  { h with
    positions := h.positions.setIfInBounds key (some h.heap.size)
    heap := h.heap.push key }

/-- Inserts a key, or lowers its value; answers whether the map changed.  An entry that was left
behind by an earlier use of the key serves again, and then the value may be larger than before. -/
def insertOrDecrease (h : TiedHeap α) (key : Nat) (value : α) : Bool × TiedHeap α :=
  if h.contains key ∧ h.value key ≤ value then (false, h)
  else
    let previous := h.value key
    let h := (h.noteTie key value).assign key value
    match h.position key with
    | none =>
        let h := h.append key
        (true, h.siftUp (h.heap.size - 1))
    | some index =>
        (true, if value < previous then h.siftUp index else h.siftDown index)

/-- Takes a key out of the map; its entry in the binary heap stays. -/
def release (h : TiedHeap α) (key : Nat) : TiedHeap α :=
  { h with present := h.present.setIfInBounds key false, count := h.count - 1 }

/-- Removes the entry at the root of the binary heap. -/
def removeRoot (h : TiedHeap α) : TiedHeap α :=
  let root := h.keyAt 0
  let h := h.exchange 0 (h.heap.size - 1)
  let h := { h with heap := h.heap.pop, positions := h.positions.setIfInBounds root none }
  h.siftDown 0

/-- Removes the root while it is the entry of a key that was handed out already. -/
def discard (h : TiedHeap α) : Option (TiedHeap α) :=
  if 0 < h.heap.size ∧ ¬ h.contains (h.keyAt 0) then some h.removeRoot else none

/-- Removes a key of least value. -/
def popMin (h : TiedHeap α) : Option Nat × TiedHeap α :=
  match h.tied with
  | key :: tied => (some key, { h with tied := tied }.release key)
  | [] =>
      let h := iterate discard h.heap.size h
      if h.heap.isEmpty then (none, h)
      else (some (h.keyAt 0), h.removeRoot.release (h.keyAt 0))

/-- Removes every key. -/
def clear (h : TiedHeap α) : TiedHeap α :=
  { h with
    heap := #[]
    positions := h.heap.foldl (fun positions key => positions.setIfInBounds key none) h.positions
    present := h.heap.foldl (fun present key => present.setIfInBounds key false) h.present
    count := 0
    tied := []
    tiedValue := Ranked.top }

/-- Inserts a key, which must be one of the map, or lowers its value. -/
def tryInsert (h : TiedHeap α) (key : Nat) (value : α) : Except Fault (Bool × TiedHeap α) :=
  if key < h.present.size then .ok (h.insertOrDecrease key value) else .error .indexOutOfRange

/-- Removes a key of least value.  A key may be handed out twice after values that cannot be
compared, and then the number of keys must not fall below zero. -/
def tryPop (h : TiedHeap α) : Except Fault (Option Nat × TiedHeap α) :=
  let (key?, next) := h.popMin
  if h.isEmpty ∧ key?.isSome then .error .belowZero else .ok (key?, next)

/-- One more key of a map that is being emptied, newest first. -/
def takeNext (state : List Nat × TiedHeap α) : Option (List Nat × TiedHeap α) :=
  match state.2.popMin with
  | (some key, h) => some (key :: state.1, h)
  | (none, _) => none

/-- Removes the keys one after the other; answers them in that order. -/
def tryDrain (h : TiedHeap α) : Except Fault (List Nat × TiedHeap α) := do
  let (keys, h) := iterate takeNext h.count ([], h)
  let (_, h) ← h.tryPop
  return (keys.reverse, h)

end TiedHeap

end GraphInterval
