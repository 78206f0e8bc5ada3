import GraphInterval.Fault

/-!
# Sparse sets

A subset of the universe `0..capacity` with membership tests and updates in
constant time.  The universe is kept in one array whose first `size` entries
are the members; a second array holds the index of every element.  Adding or
removing an element swaps it with the element at the boundary and moves the
boundary by one, so the order of enumeration depends on the history of the
set, while equality compares members only.
-/

namespace GraphInterval

structure SparseSet where
  /-- A permutation of the universe. -/
  elements : Array Nat
  /-- The index of every element in `elements`. -/
  positions : Array Nat
  /-- The number of members. -/
  size : Nat
  deriving Inhabited, Repr

namespace SparseSet

/-- The set without members over the universe `0..capacity`. -/
def empty (capacity : Nat) : SparseSet :=
  { elements := Array.range capacity, positions := Array.range capacity, size := 0 }

/-- The whole universe `0..capacity`. -/
def full (capacity : Nat) : SparseSet :=
  { empty capacity with size := capacity }

/-- The size of the universe. -/
def capacity (s : SparseSet) : Nat := s.elements.size

def isEmpty (s : SparseSet) : Bool := s.size == 0

def contains (s : SparseSet) (element : Nat) : Bool :=
  decide (element < s.positions.size) && decide (s.positions.getD element 0 < s.size)

instance : Membership Nat SparseSet := ⟨fun s element => s.contains element = true⟩

instance (element : Nat) (s : SparseSet) : Decidable (element ∈ s) :=
  inferInstanceAs (Decidable (s.contains element = true))

/-- The members in the order in which they are enumerated. -/
def toList (s : SparseSet) : List Nat := s.elements.toList.take s.size

/-- Swaps the elements at two indices. -/
def exchange (s : SparseSet) (i j : Nat) : SparseSet :=
  let a := s.elements.getD i 0
  let b := s.elements.getD j 0
  { s with
    elements := (s.elements.setIfInBounds i b).setIfInBounds j a
    positions := (s.positions.setIfInBounds b i).setIfInBounds a j }

/-- Adds an element of the universe; other numbers are ignored. -/
def insert (s : SparseSet) (element : Nat) : SparseSet :=
  if element < s.capacity ∧ ¬ s.contains element then
    { s.exchange (s.positions.getD element 0) s.size with size := s.size + 1 }
  else s

/-- Removes an element. -/
def erase (s : SparseSet) (element : Nat) : SparseSet :=
  if s.contains element then
    { s.exchange (s.positions.getD element 0) (s.size - 1) with size := s.size - 1 }
  else s

/-- Removes every member. -/
def clear (s : SparseSet) : SparseSet := { s with size := 0 }

/-- Adds an element and tells whether it was absent; it must belong to the universe. -/
def tryInsert (s : SparseSet) (element : Nat) : Except Fault (Bool × SparseSet) :=
  if element < s.capacity then .ok (!s.contains element, s.insert element)
  else .error (.outsideUniverse element s.capacity)

/-- Removes an element and tells whether it was present; it may be any number. -/
def remove (s : SparseSet) (element : Nat) : Bool × SparseSet :=
  (s.contains element, s.erase element)

/-- Adds elements of the universe one after the other. -/
def tryInsertAll (s : SparseSet) (elements : List Nat) : Except Fault SparseSet :=
  elements.foldlM (fun s element => return (← s.tryInsert element).2) s

/-- Whether two sets have the same universe and the same members. -/
def sameMembers (s t : SparseSet) : Bool :=
  s.capacity == t.capacity && s.size == t.size && s.toList.all t.contains

instance : BEq SparseSet := ⟨sameMembers⟩

/-- The members in increasing order. -/
def sorted (s : SparseSet) : List Nat := (List.range s.capacity).filter s.contains

end SparseSet

end GraphInterval
