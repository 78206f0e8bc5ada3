import GraphInterval.Fault
import GraphInterval.Iterate

/-!
# Partitions

The partition of `0..n` that is generated by uniting pairs of elements.  Every
class is a tree of parent pointers with its representative at the root; roots
are linked by rank, and looking a representative up halves the path to it.
-/

namespace GraphInterval

structure Partition where
  parents : Array Nat
  /-- A bound on the height of the tree below every root. -/
  ranks : Array Nat
  deriving Inhabited, Repr

namespace Partition

/-- Every element of `0..size` is alone. -/
def discrete (size : Nat) : Partition :=
  { parents := Array.range size, ranks := Array.replicate size 0 }

/-- The number of elements. -/
def size (p : Partition) : Nat := p.parents.size

def parent (p : Partition) (element : Nat) : Nat := p.parents.getD element element

/-- Separates all elements. -/
def reset (p : Partition) : Partition := discrete p.size

/-- One step of a look-up: the element is hung below its grandparent, where the search continues. -/
def halve (search : Partition × Nat) : Option (Partition × Nat) :=
  let (p, element) := search
  if p.parent element = element then none
  else
    let grandparent := p.parent (p.parent element)
    some ({ p with parents := p.parents.setIfInBounds element grandparent }, grandparent)

/-- The representative of the class of an element, and the partition with shorter paths. -/
def find (p : Partition) (element : Nat) : Nat × Partition :=
  let (p, root) := iterate halve p.size (p, element)
  (root, p)

/-- Makes one of two roots the parent of the other, the one of smaller rank below. -/
def link (p : Partition) (a b : Nat) : Partition :=
  let rankA := p.ranks.getD a 0
  let rankB := p.ranks.getD b 0
  if rankA < rankB then { p with parents := p.parents.setIfInBounds a b }
  else
    { parents := p.parents.setIfInBounds b a
      ranks := if rankA = rankB then p.ranks.setIfInBounds a (rankA + 1) else p.ranks }

/-- Merges the classes of two elements; answers whether they were distinct. -/
def union (p : Partition) (a b : Nat) : Bool × Partition :=
  let (rootA, p) := p.find a
  let (rootB, p) := p.find b
  if rootA = rootB then (false, p) else (true, p.link rootA rootB)

/-- The representative of an element, which must be one of the partition. -/
def tryFind (p : Partition) (element : Nat) : Except Fault (Nat × Partition) :=
  if element < p.size then .ok (p.find element) else .error .indexOutOfRange

/-- Merges the classes of two elements, which must be ones of the partition. -/
def tryUnion (p : Partition) (a b : Nat) : Except Fault (Bool × Partition) :=
  if a < p.size ∧ b < p.size then .ok (p.union a b) else .error .indexOutOfRange

/-- The representatives of all elements, looked up in increasing order. -/
def roots (p : Partition) : List Nat × Partition :=
  let (roots, p) := (List.range p.size).foldl
    (fun (roots, p) element =>
      let (root, p) := p.find element
      (root :: roots, p)) ([], p)
  (roots.reverse, p)

end Partition

end GraphInterval
