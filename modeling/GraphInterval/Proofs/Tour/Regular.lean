import GraphInterval.Proofs.Tour.Cycle

/-!
# One-trees without a violated degree

A tree in which no node has more than two edges is a path: it may be walked
from any of its ends, and removing the first node leaves such a tree again.
In a one-tree whose nodes all have two edges, the spanning tree of the inner
nodes is such a path.  Each of its two ends lacks one edge, which only the
designated node can give, and this closes the path to a Hamiltonian cycle.
-/

namespace GraphInterval

open OneTree

variable {n a b v : ℕ} {nodes : List ℕ} {V : Finset ℕ} {S T : Finset (Sym2 ℕ)}

/-! ### Paths -/

/-- A node with only one edge is removed from a tree together with its edge. -/
theorem IsSpanningTree.erase_leaf (hS : IsSpanningTree V S) (hab : s(a, b) ∈ S)
    (hone : (S.filter (a ∈ ·)).card ≤ 1) :
    IsSpanningTree (V.erase a) (S.erase s(a, b)) := by
  obtain ⟨ha, hb⟩ := hS.inside a b hab
  have hne : a ≠ b := hS.forest.ne hab
  have honly : ∀ e ∈ S.erase s(a, b), a ∉ e := by
    intro e he hae
    obtain ⟨hother, heS⟩ := Finset.mem_erase.mp he
    exact hother (Finset.card_le_one.mp hone e (Finset.mem_filter.mpr ⟨heS, hae⟩) s(a, b)
      (Finset.mem_filter.mpr ⟨hab, Sym2.mem_mk_left a b⟩))
  have hinside : ∀ x y, s(x, y) ∈ S.erase s(a, b) → x ∈ V.erase a ∧ y ∈ V.erase a := by
    intro x y hxy
    obtain ⟨hx, hy⟩ := hS.inside x y (Finset.mem_of_mem_erase hxy)
    have hout := honly _ hxy
    rw [Sym2.mem_iff, not_or] at hout
    exact ⟨Finset.mem_erase.mpr ⟨Ne.symm hout.1, hx⟩, Finset.mem_erase.mpr ⟨Ne.symm hout.2, hy⟩⟩
  have hforest := hS.forest.mono (Finset.erase_subset s(a, b) S)
  have hcard := (hS.forest.isSpanningTree_iff hS.inside ⟨a, ha⟩).mp hS
  have hpos := Finset.card_pos.mpr ⟨_, hab⟩
  rw [hforest.isSpanningTree_iff hinside ⟨b, Finset.mem_erase.mpr ⟨hne.symm, hb⟩⟩,
    Finset.card_erase_of_mem hab, Finset.card_erase_of_mem ha]
  omega

/-- A tree in which no node has more than two edges is a path that starts at any node with one. -/
theorem IsSpanningTree.exists_path (hS : IsSpanningTree V S) (ha : a ∈ V)
    (hone : (S.filter (a ∈ ·)).card ≤ 1) (htwo : ∀ v, (S.filter (v ∈ ·)).card ≤ 2) :
    ∃ nodes, (a :: nodes).Nodup ∧ (a :: nodes).toFinset = V ∧
      (pathEdges (a :: nodes)).toFinset = S := by
  have hcard := (hS.forest.isSpanningTree_iff hS.inside ⟨a, ha⟩).mp hS
  induction hm : S.card generalizing a V S with
  | zero =>
      obtain ⟨v, rfl⟩ := Finset.card_eq_one.mp (hcard.symm.trans (by rw [hm]))
      obtain rfl := Finset.mem_singleton.mp ha
      exact ⟨[], List.nodup_singleton a, rfl, (Finset.card_eq_zero.mp hm).symm⟩
  | succ m ih =>
      obtain ⟨v, hv, hva⟩ := Finset.exists_mem_ne (by omega : 1 < V.card) a
      obtain ⟨x, b, hab, hx, -⟩ := (hS.joined a ha v hv).exists_crossing (A := (· = a)) rfl hva
      rw [hx] at hab
      have htree := hS.erase_leaf hab hone
      have hb : b ∈ V.erase a :=
        Finset.mem_erase.mpr ⟨(hS.forest.ne hab).symm, (hS.inside a b hab).2⟩
      have hsize := Finset.card_erase_of_mem hab
      have hless : ∀ v, (S.erase s(a, b)).filter (v ∈ ·) = (S.filter (v ∈ ·)).erase s(a, b) :=
        fun v => Finset.filter_erase _ _ _
      -- the second node of the path has lost one of its at most two edges
      have hend : ((S.erase s(a, b)).filter (b ∈ ·)).card ≤ 1 := by
        have hmem : s(a, b) ∈ S.filter (b ∈ ·) :=
          Finset.mem_filter.mpr ⟨hab, Sym2.mem_mk_right a b⟩
        have hb2 := htwo b
        rw [hless, Finset.card_erase_of_mem hmem]
        omega
      have hrest : ∀ v, ((S.erase s(a, b)).filter (v ∈ ·)).card ≤ 2 := fun v =>
        (hless v ▸ Finset.card_erase_le).trans (htwo v)
      obtain ⟨nodes, hnodup, hnodes, hedges⟩ := ih htree hb hend hrest
        ((htree.forest.isSpanningTree_iff htree.inside ⟨b, hb⟩).mp htree) (by omega)
      refine ⟨b :: nodes, List.nodup_cons.mpr ⟨fun hmem => ?_, hnodup⟩, ?_, ?_⟩
      · exact Finset.notMem_erase a V (hnodes ▸ List.mem_toFinset.mpr hmem)
      · rw [List.toFinset_cons, hnodes, Finset.insert_erase ha]
      · change (s(a, b) :: pathEdges (b :: nodes)).toFinset = S
        rw [List.toFinset_cons, hedges, Finset.insert_erase hab]

/-- The last node of a path has only one edge. -/
theorem card_filter_getLastD (hnodup : (a :: nodes).Nodup) :
    ((pathEdges (a :: nodes)).toFinset.filter (nodes.getLastD a ∈ ·)).card ≤ 1 := by
  induction nodes generalizing a with
  | nil => simp [pathEdges]
  | cons b nodes ih =>
      obtain ⟨ha, hrest⟩ := List.nodup_cons.mp hnodup
      have hedges : (pathEdges (a :: b :: nodes)).toFinset =
          insert s(a, b) (pathEdges (b :: nodes)).toFinset := List.toFinset_cons
      rw [List.getLastD_cons, hedges]
      cases nodes with
      | nil => exact Finset.card_filter_le _ _
      | cons c nodes =>
          have hlast : (c :: nodes).getLastD b ∈ c :: nodes := by
            rw [List.getLastD_cons]
            exact List.getLastD_mem_cons
          have hout : (c :: nodes).getLastD b ∉ s(a, b) := by
            rw [Sym2.mem_iff, not_or]
            exact ⟨fun h => ha (List.mem_cons_of_mem b (h ▸ hlast)),
              fun h => (List.nodup_cons.mp hrest).1 (h ▸ hlast)⟩
          rw [Finset.filter_insert, if_neg hout]
          exact ih hrest

/-! ### Closing the path -/

/-- The edges of a node of a one-tree are those of the spanning tree and those of the designated
node. -/
theorem card_filter_inner_add_outer (T : Finset (Sym2 ℕ)) (v : ℕ) :
    ((innerEdges T).filter (v ∈ ·)).card + ((outerEdges T).filter (v ∈ ·)).card =
      (T.filter (v ∈ ·)).card := by
  rw [innerEdges, outerEdges, Finset.filter_comm, Finset.filter_comm (designated ∈ ·), add_comm]
  exact Finset.card_filter_add_card_filter_not _

/-- The end of a path of inner edges is a neighbour of the designated node. -/
theorem mem_of_card_filter_inner_le (hv : v ∈ innerNodes n)
    (htwo : (T.filter (v ∈ ·)).card = 2) (hone : ((innerEdges T).filter (v ∈ ·)).card ≤ 1) :
    s(designated, v) ∈ T := by
  have hsum := card_filter_inner_add_outer T v
  have hpos : 0 < ((outerEdges T).filter (v ∈ ·)).card := by omega
  obtain ⟨e, he⟩ := Finset.card_pos.mp hpos
  obtain ⟨houter, hve⟩ := Finset.mem_filter.mp he
  obtain ⟨heT, hd⟩ := mem_outerEdges.mp houter
  rwa [(Sym2.mem_and_mem_iff (mem_innerNodes.mp hv).1.symm).mp ⟨hd, hve⟩] at heT

/-- In a one-tree whose nodes have two edges, the inner nodes form a path between the two neighbours
of the designated node. -/
theorem IsOneTree.exists_path (hT : IsOneTree n T)
    (htwo : ∀ v < n, (T.filter (v ∈ ·)).card = 2) :
    ∃ a nodes, (a :: nodes).Nodup ∧ (a :: nodes).toFinset = innerNodes n ∧
      (pathEdges (a :: nodes)).toFinset = innerEdges T ∧ s(designated, a) ∈ T ∧
      s(designated, nodes.getLastD a) ∈ T := by
  have hsum := card_filter_inner_add_outer T
  have hless : ∀ v, ((innerEdges T).filter (v ∈ ·)).card ≤ 2 := by
    intro v
    by_cases hv : v < n
    · have hv2 := htwo v hv
      have hvs := hsum v
      omega
    · have hnone : (innerEdges T).filter (v ∈ ·) = ∅ := by
        rw [Finset.filter_eq_empty_iff]
        rintro e he ⟨w, rfl⟩
        exact hv (mem_innerNodes.mp (hT.inner.inside v w he).1).2
      rw [hnone, Finset.card_empty]
      exact Nat.zero_le 2
  obtain ⟨e, he⟩ := Finset.card_pos.mp (by rw [hT.two]; decide : 0 < (outerEdges T).card)
  obtain ⟨heT, hd⟩ := mem_outerEdges.mp he
  obtain ⟨a, rfl⟩ := exists_eq_of_mem hd
  have ha := hT.outer a heT
  have hone : ((innerEdges T).filter (a ∈ ·)).card ≤ 1 := by
    have hpos : 0 < ((outerEdges T).filter (a ∈ ·)).card :=
      Finset.card_pos.mpr ⟨_, Finset.mem_filter.mpr ⟨he, Sym2.mem_mk_right designated a⟩⟩
    have ha2 := htwo a (mem_innerNodes.mp ha).2
    have has := hsum a
    omega
  obtain ⟨nodes, hnodup, hnodes, hedges⟩ := hT.inner.exists_path ha hone hless
  have hlast : nodes.getLastD a ∈ innerNodes n := by
    rw [← hnodes, List.mem_toFinset]
    exact List.getLastD_mem_cons
  refine ⟨a, nodes, hnodup, hnodes, hedges, heT, ?_⟩
  apply mem_of_card_filter_inner_le hlast (htwo _ (mem_innerNodes.mp hlast).2)
  rw [← hedges]
  exact card_filter_getLastD hnodup

/-- A one-tree in which every node has two edges is a Hamiltonian cycle. -/
theorem IsOneTree.isTour (hn : 3 ≤ n) (hT : IsOneTree n T)
    (htwo : ∀ v < n, (T.filter (v ∈ ·)).card = 2) : IsTour n T := by
  obtain ⟨a, nodes, hnodup, hnodes, hedges, ha, hz⟩ := hT.exists_path htwo
  have hlength : nodes.length + 1 = n - 1 := by
    rw [← card_innerNodes, ← hnodes, List.toFinset_card_of_nodup hnodup, List.length_cons]
  have hne : s(designated, a) ≠ s(designated, nodes.getLastD a) := by
    rw [ne_eq, Sym2.congr_right]
    intro heq
    cases nodes with
    | nil => simp at hlength; omega
    | cons b nodes =>
        refine (List.nodup_cons.mp hnodup).1 ?_
        rw [heq, List.getLastD_cons]
        exact List.getLastD_mem_cons
  have houter : {s(designated, a), s(designated, nodes.getLastD a)} = outerEdges T := by
    apply Finset.eq_of_subset_of_card_le
    · rw [Finset.insert_subset_iff, Finset.singleton_subset_iff, mem_outerEdges, mem_outerEdges]
      exact ⟨⟨ha, Sym2.mem_mk_left _ _⟩, hz, Sym2.mem_mk_left _ _⟩
    · rw [hT.two, Finset.card_pair hne]
  have hfresh : designated ∉ a :: nodes := by
    rw [← List.mem_toFinset, hnodes, mem_innerNodes]
    exact fun h => h.1 rfl
  refine ⟨designated :: a :: nodes, ?_, ?_⟩
  · apply List.perm_of_nodup_nodup_toFinset_eq (List.nodup_cons.mpr ⟨hfresh, hnodup⟩)
      List.nodup_range
    ext v
    rw [List.toFinset_cons, hnodes, Finset.mem_insert, mem_innerNodes, List.mem_toFinset,
      List.mem_range]
    have hzero : designated = 0 := rfl
    omega
  · rw [cycleEdges_cons, List.toFinset_cons, List.toFinset_append, hedges]
    ext e
    have hout : e ∈ outerEdges T ↔ e = s(designated, a) ∨ e = s(designated, nodes.getLastD a) := by
      rw [← houter, Finset.mem_insert, Finset.mem_singleton]
    rw [Finset.mem_insert, Finset.mem_union, List.mem_toFinset, List.mem_singleton,
      Sym2.eq_swap (a := nodes.getLastD a), or_left_comm, ← hout, mem_innerEdges, mem_outerEdges,
      ← and_or_left, and_iff_left (em' _)]

end GraphInterval
