import GraphInterval.Proofs.Tree.OneTree
import GraphInterval.Proofs.Tree.Path
import Mathlib.Algebra.BigOperators.Group.List.Basic
import Mathlib.Data.List.Rotate

/-!
# Hamiltonian cycles

A Hamiltonian cycle visits every node once and returns to the first one.  It
may be listed from any of its nodes.  Listed from the designated node, it is a
path through all inner nodes with two more edges, and so a one-tree.  Every
node has two of its edges, which is why penalties on the nodes change the cost
of all cycles by the same amount.
-/

namespace GraphInterval

open OneTree

/-- The edges between consecutive nodes of a list and from its last node to its first one. -/
def cycleEdges (nodes : List ℕ) : List (Sym2 ℕ) :=
  List.zipWith (fun a b => s(a, b)) nodes (nodes.rotate 1)

/-- The edges of a cycle that visits every node below `n` once. -/
def IsTour (n : ℕ) (H : Finset (Sym2 ℕ)) : Prop :=
  ∃ nodes : List ℕ, nodes.Perm (List.range n) ∧ (cycleEdges nodes).toFinset = H

variable {n a b : ℕ} {nodes : List ℕ} {H : Finset (Sym2 ℕ)}

theorem length_cycleEdges (nodes : List ℕ) : (cycleEdges nodes).length = nodes.length := by
  rw [cycleEdges, List.length_zipWith, List.length_rotate, Nat.min_self]

theorem cycleEdges_rotate (nodes : List ℕ) (k : ℕ) :
    cycleEdges (nodes.rotate k) = (cycleEdges nodes).rotate k := by
  rw [cycleEdges, cycleEdges, List.zipWith_rotate_distrib _ _ _ _ (List.length_rotate ..).symm,
    List.rotate_rotate, List.rotate_rotate, Nat.add_comm]

/-- A cycle may be listed from the designated node. -/
theorem IsTour.exists_from_designated (hn : 0 < n) (hH : IsTour n H) :
    ∃ rest, (designated :: rest).Perm (List.range n) ∧
      (cycleEdges (designated :: rest)).toFinset = H := by
  obtain ⟨nodes, hperm, rfl⟩ := hH
  have hmem : designated ∈ nodes := hperm.mem_iff.mpr (List.mem_range.mpr hn)
  obtain ⟨before, after, rfl⟩ := List.append_of_mem hmem
  have hrotate : (before ++ designated :: after).rotate before.length =
      designated :: (after ++ before) := List.rotate_append_length_eq _ _
  refine ⟨after ++ before, ?_, ?_⟩
  · rw [← hrotate]
    exact (List.rotate_perm _ _).trans hperm
  · rw [← hrotate, cycleEdges_rotate]
    exact List.toFinset_eq_of_perm _ _ (List.rotate_perm _ _)

/-! ### Cycles are one-trees -/

/-- A path is a spanning tree of its nodes. -/
theorem isSpanningTree_path (hnodup : (a :: nodes).Nodup) :
    IsSpanningTree (a :: nodes).toFinset (pathEdges (a :: nodes)).toFinset := by
  induction nodes generalizing a with
  | nil => exact IsSpanningTree.singleton a
  | cons b nodes ih =>
      obtain ⟨ha, hnodup⟩ := List.nodup_cons.mp hnodup
      have hset : (a :: b :: nodes).toFinset = insert a (b :: nodes).toFinset :=
        List.toFinset_cons
      have hedges : (pathEdges (a :: b :: nodes)).toFinset =
          insert s(b, a) (pathEdges (b :: nodes)).toFinset := by
        rw [Sym2.eq_swap]
        exact List.toFinset_cons
      rw [hset, hedges]
      apply (ih hnodup).insert_leaf
      · rwa [List.mem_toFinset]
      · rw [List.mem_toFinset]
        exact List.mem_cons_self

theorem zipWith_append_singleton {β : Type} (f : ℕ → ℕ → β) (a c : ℕ) (nodes : List ℕ) :
    List.zipWith f (a :: nodes) (nodes ++ [c]) =
      List.zipWith f (a :: nodes) nodes ++ [f (nodes.getLastD a) c] := by
  induction nodes generalizing a with
  | nil => rfl
  | cons b nodes ih =>
      rw [List.cons_append, List.zipWith_cons_cons, List.zipWith_cons_cons, ih,
        List.getLastD_cons, List.cons_append]

/-- The edges of a cycle are those of a path and two edges that close it. -/
theorem cycleEdges_cons (a b : ℕ) (nodes : List ℕ) : cycleEdges (a :: b :: nodes) =
    s(a, b) :: (pathEdges (b :: nodes) ++ [s(nodes.getLastD b, a)]) := by
  rw [cycleEdges, List.zipWith_rotate_one, zipWith_append_singleton]
  rfl

/-- The nodes after the designated one are the inner nodes. -/
theorem toFinset_eq_innerNodes (hperm : (designated :: nodes).Perm (List.range n)) :
    nodes.toFinset = innerNodes n := by
  have hnodup : (designated :: nodes).Nodup := hperm.nodup_iff.mpr List.nodup_range
  ext v
  have hv : v ∈ designated :: nodes ↔ v < n := hperm.mem_iff.trans List.mem_range
  rw [List.mem_toFinset, mem_innerNodes, ← hv, List.mem_cons]
  constructor
  · intro hmem
    refine ⟨?_, .inr hmem⟩
    rintro rfl
    exact (List.nodup_cons.mp hnodup).1 hmem
  · rintro ⟨hne, hmem⟩
    exact hmem.resolve_left hne

/-- Every Hamiltonian cycle is a one-tree. -/
theorem IsTour.isOneTree (hn : 3 ≤ n) (hH : IsTour n H) : IsOneTree n H := by
  obtain ⟨rest, hperm, rfl⟩ := hH.exists_from_designated (by omega)
  have hnodup : rest.Nodup := (List.nodup_cons.mp (hperm.nodup_iff.mpr List.nodup_range)).2
  have hinner := toFinset_eq_innerNodes hperm
  have hlength : rest.length + 1 = n := by
    simpa using hperm.length_eq
  obtain _ | ⟨b, _ | ⟨c, nodes⟩⟩ := rest
  · simp at hlength
    omega
  · simp at hlength
    omega
  · have htree : IsSpanningTree (innerNodes n) (pathEdges (b :: c :: nodes)).toFinset :=
      hinner ▸ isSpanningTree_path hnodup
    have hmem : ∀ v ∈ b :: c :: nodes, v ∈ innerNodes n := by
      intro v hv
      rw [← hinner]
      exact List.mem_toFinset.mpr hv
    -- the path ends in another node than it starts from
    have hlast : nodes.getLastD c ∈ c :: nodes := List.getLastD_mem_cons
    have hne : b ≠ nodes.getLastD c := by
      intro heq
      exact (List.nodup_cons.mp hnodup).1 (heq ▸ hlast)
    have hset : (cycleEdges (designated :: b :: c :: nodes)).toFinset =
        insert s(designated, b) (insert s(designated, nodes.getLastD c)
          (pathEdges (b :: c :: nodes)).toFinset) := by
      rw [cycleEdges_cons, List.getLastD_cons, List.toFinset_cons, List.toFinset_append,
        Finset.union_comm, Sym2.eq_swap (a := nodes.getLastD c)]
      rfl
    rw [hset]
    exact htree.isOneTree (hmem b List.mem_cons_self)
      (hmem (nodes.getLastD c) (List.mem_cons_of_mem b hlast)) hne

/-- A one-tree has as many edges as nodes. -/
theorem IsOneTree.card_eq (hn : 2 ≤ n) (hH : IsOneTree n H) : H.card = n := by
  have hnonempty : (innerNodes n).Nonempty := by
    rw [← Finset.card_pos, card_innerNodes]
    omega
  have hinner := (hH.inner.forest.isSpanningTree_iff hH.inner.inside hnonempty).mp hH.inner
  rw [card_innerNodes] at hinner
  have hcard : (outerEdges H).card + (innerEdges H).card = H.card :=
    Finset.card_filter_add_card_filter_not _
  have htwo := hH.two
  omega

/-- The edges of a Hamiltonian cycle are different. -/
theorem nodup_cycleEdges (hn : 3 ≤ n) (hperm : nodes.Perm (List.range n)) :
    (cycleEdges nodes).Nodup := by
  have hone := IsTour.isOneTree hn ⟨nodes, hperm, rfl⟩
  have hcard : (cycleEdges nodes).toFinset.card = (cycleEdges nodes).length := by
    rw [hone.card_eq (by omega), length_cycleEdges, hperm.length_eq, List.length_range]
  exact Multiset.coe_nodup.mp (Multiset.toFinset_card_eq_card_iff_nodup.mp hcard)

/-- The sum of the penalties of both endpoints of an edge. -/
def endPenalties (π : ℕ → ℚ) : Sym2 ℕ → ℚ :=
  Sym2.lift ⟨fun a b => π a + π b, fun a b => add_comm (π a) (π b)⟩

/-- The costs of the edges plus the penalties of both endpoints. -/
def penalised (cost : Sym2 ℕ → ℚ) (π : ℕ → ℚ) (e : Sym2 ℕ) : ℚ := cost e + endPenalties π e

/-- Every node is an endpoint of two edges of a cycle. -/
theorem sum_endPenalties (π : ℕ → ℚ) (nodes : List ℕ) :
    ((cycleEdges nodes).map (endPenalties π)).sum = 2 * (nodes.map π).sum := by
  have hlength : (nodes.map π).length = ((nodes.rotate 1).map π).length := by
    rw [List.length_map, List.length_map, List.length_rotate]
  have hrotate : ((nodes.rotate 1).map π).sum = (nodes.map π).sum :=
    ((List.rotate_perm nodes 1).map π).sum_eq
  calc ((cycleEdges nodes).map (endPenalties π)).sum
      = (List.zipWith (fun a b => π a + π b) nodes (nodes.rotate 1)).sum := by
        rw [cycleEdges, List.map_zipWith]
        rfl
    _ = (List.zipWith (· + ·) (nodes.map π) ((nodes.rotate 1).map π)).sum := by
        rw [List.zipWith_map]
    _ = (nodes.map π).sum + ((nodes.rotate 1).map π).sum :=
        (List.sum_add_sum_eq_sum_zipWith_of_length_eq _ _ hlength).symm
    _ = 2 * (nodes.map π).sum := by
        rw [hrotate, two_mul]

/-- Penalties raise the cost of every Hamiltonian cycle by twice their sum. -/
theorem IsTour.totalCost_penalised (hn : 3 ≤ n) (hH : IsTour n H) (cost : Sym2 ℕ → ℚ)
    (π : ℕ → ℚ) :
    totalCost (penalised cost π) H = totalCost cost H + 2 * ((List.range n).map π).sum := by
  obtain ⟨nodes, hperm, rfl⟩ := hH
  have hsum : totalCost (endPenalties π) (cycleEdges nodes).toFinset =
      2 * ((List.range n).map π).sum := by
    rw [totalCost, List.sum_toFinset _ (nodup_cycleEdges hn hperm), sum_endPenalties,
      (hperm.map π).sum_eq]
  rw [← hsum]
  exact Finset.sum_add_distrib

end GraphInterval
