/-!
# Tables

A table of values by row and column, such as the costs between the nodes of a
graph.  Rows may differ in length; a reading outside of the table answers a
given default, and a writing outside of it changes nothing.
-/

namespace GraphInterval

structure Table (α : Type) where
  rows : Array (Array α)
  deriving Inhabited, Repr, BEq

namespace Table

variable {α : Type}

/-- The square table of one value. -/
def replicate (size : Nat) (value : α) : Table α :=
  { rows := Array.replicate size (Array.replicate size value) }

/-- The square table of a function. -/
def ofFn (size : Nat) (f : Nat → Nat → α) : Table α :=
  { rows := Array.ofFn (n := size) fun i => Array.ofFn (n := size) fun j => f i j }

def ofRows (rows : List (List α)) : Table α :=
  { rows := (rows.map List.toArray).toArray }

def row (t : Table α) (i : Nat) : Array α := t.rows.getD i #[]

/-- Whether there is an entry in a row and a column. -/
def covers (t : Table α) (i j : Nat) : Bool := decide (j < (t.row i).size)

def entry (t : Table α) (i j : Nat) (default : α) : α := (t.row i).getD j default

/-- Writes one entry. -/
def put (t : Table α) (i j : Nat) (value : α) : Table α :=
  { rows := t.rows.modify i (·.setIfInBounds j value) }

/-- Writes an entry and its mirror image. -/
def putBoth (t : Table α) (i j : Nat) (value : α) : Table α := (t.put i j value).put j i value

/-- Replaces a row. -/
def putRow (t : Table α) (i : Nat) (row : Array α) : Table α :=
  { rows := t.rows.setIfInBounds i row }

/-- Gives all entries one value. -/
def fill (t : Table α) (value : α) : Table α :=
  { rows := t.rows.map fun row => Array.replicate row.size value }

/-- The first rows come from another table, the remaining ones are kept. -/
def overwrite (t source : Table α) : Table α :=
  { rows := source.rows.take t.rows.size ++ t.rows.drop source.rows.size }

/-- Whether every row that `overwrite` takes is as long as the row that it replaces. -/
def fits (t source : Table α) : Bool :=
  (t.rows.zip source.rows).all fun (old, new) => old.size == new.size

end Table

end GraphInterval
