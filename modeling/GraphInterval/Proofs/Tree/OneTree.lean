import GraphInterval.OneTree.Basic
import GraphInterval.Proofs.Tree.Spanning
import Mathlib.Order.Interval.Finset.Nat

/-!
# One-trees as edge sets

A one-tree consists of a spanning tree of the inner nodes, which are all nodes
but the designated one, and two edges from the designated node to inner nodes.
One-trees exchange edges: inner edges as spanning trees do, and edges of the
designated node without any condition.
-/

namespace GraphInterval

namespace OneTree

/-- The nodes other than the designated one. -/
def innerNodes (n : ℕ) : Finset ℕ := Finset.Ico (designated + 1) n

/-- The edges away from the designated node. -/
def innerEdges (H : Finset (Sym2 ℕ)) : Finset (Sym2 ℕ) := H.filter (designated ∉ ·)

/-- The edges of the designated node. -/
def outerEdges (H : Finset (Sym2 ℕ)) : Finset (Sym2 ℕ) := H.filter (designated ∈ ·)

variable {n : ℕ} {H S T : Finset (Sym2 ℕ)} {e f : Sym2 ℕ} {a b : ℕ}

theorem mem_innerNodes : a ∈ innerNodes n ↔ a ≠ designated ∧ a < n := by
  rw [innerNodes, Finset.mem_Ico, designated]
  omega

theorem card_innerNodes (n : ℕ) : (innerNodes n).card = n - 1 := Nat.card_Ico _ _

theorem mem_innerEdges : e ∈ innerEdges H ↔ e ∈ H ∧ designated ∉ e := Finset.mem_filter

theorem mem_outerEdges : e ∈ outerEdges H ↔ e ∈ H ∧ designated ∈ e := Finset.mem_filter

/-- An edge of the designated node is given by its other endpoint. -/
theorem exists_eq_of_mem (he : designated ∈ e) : ∃ v, e = s(designated, v) := he

theorem not_mem_inner (ha : a ∈ innerNodes n) (hb : b ∈ innerNodes n) :
    designated ∉ s(a, b) := by
  rw [Sym2.mem_iff]
  rintro (h | h)
  · exact (mem_innerNodes.mp ha).1 h.symm
  · exact (mem_innerNodes.mp hb).1 h.symm

/-! ### Replacing an edge -/

theorem innerEdges_insert_of_mem (he : designated ∈ e) :
    innerEdges (insert e H) = innerEdges H := by
  rw [innerEdges, Finset.filter_insert, if_neg (not_not.mpr he), innerEdges]

theorem innerEdges_insert_of_notMem (he : designated ∉ e) :
    innerEdges (insert e H) = insert e (innerEdges H) := by
  rw [innerEdges, Finset.filter_insert, if_pos he, innerEdges]

theorem outerEdges_insert_of_mem (he : designated ∈ e) :
    outerEdges (insert e H) = insert e (outerEdges H) := by
  rw [outerEdges, Finset.filter_insert, if_pos he, outerEdges]

theorem outerEdges_insert_of_notMem (he : designated ∉ e) :
    outerEdges (insert e H) = outerEdges H := by
  rw [outerEdges, Finset.filter_insert, if_neg he, outerEdges]

theorem innerEdges_erase : innerEdges (H.erase f) = (innerEdges H).erase f := by
  rw [innerEdges, Finset.filter_erase, innerEdges]

theorem outerEdges_erase : outerEdges (H.erase f) = (outerEdges H).erase f := by
  rw [outerEdges, Finset.filter_erase, outerEdges]

theorem innerEdges_erase_of_mem (hf : designated ∈ f) :
    innerEdges (H.erase f) = innerEdges H := by
  rw [innerEdges_erase]
  exact Finset.erase_eq_of_notMem fun h => (mem_innerEdges.mp h).2 hf

theorem outerEdges_erase_of_notMem (hf : designated ∉ f) :
    outerEdges (H.erase f) = outerEdges H := by
  rw [outerEdges_erase]
  exact Finset.erase_eq_of_notMem fun h => hf (mem_outerEdges.mp h).2

theorem eq_of_inner_outer (hinner : innerEdges S = innerEdges T)
    (houter : outerEdges S = outerEdges T) : S = T := by
  ext e
  by_cases he : designated ∈ e
  · have hmem := Finset.ext_iff.mp houter e
    rwa [mem_outerEdges, mem_outerEdges, and_iff_left he, and_iff_left he] at hmem
  · have hmem := Finset.ext_iff.mp hinner e
    rwa [mem_innerEdges, mem_innerEdges, and_iff_left he, and_iff_left he] at hmem

theorem notMem_of_spanning (hT : IsSpanningTree (innerNodes n) T) (he : e ∈ T) :
    designated ∉ e := by
  intro hd
  obtain ⟨v, rfl⟩ := exists_eq_of_mem hd
  exact (mem_innerNodes.mp (hT.inside _ _ he).1).1 rfl

theorem innerEdges_eq_self (hT : IsSpanningTree (innerNodes n) T) : innerEdges T = T :=
  Finset.filter_eq_self.mpr fun _ => notMem_of_spanning hT

theorem outerEdges_eq_empty (hT : IsSpanningTree (innerNodes n) T) : outerEdges T = ∅ :=
  Finset.filter_eq_empty_iff.mpr fun _ => notMem_of_spanning hT

end OneTree

open OneTree

/-- A spanning tree of the inner nodes and two edges of the designated node. -/
structure IsOneTree (n : ℕ) (H : Finset (Sym2 ℕ)) : Prop where
  inner : IsSpanningTree (innerNodes n) (innerEdges H)
  two : (outerEdges H).card = 2
  outer : ∀ v, s(designated, v) ∈ H → v ∈ innerNodes n

/-- A spanning tree of the inner nodes with two more edges is a one-tree. -/
theorem IsSpanningTree.isOneTree {n a b : ℕ} {T : Finset (Sym2 ℕ)}
    (hT : IsSpanningTree (innerNodes n) T) (ha : a ∈ innerNodes n) (hb : b ∈ innerNodes n)
    (hab : a ≠ b) : IsOneTree n (insert s(designated, a) (insert s(designated, b) T)) := by
  have houter : outerEdges (insert s(designated, a) (insert s(designated, b) T)) =
      {s(designated, a), s(designated, b)} := by
    rw [outerEdges_insert_of_mem (Sym2.mem_mk_left _ _),
      outerEdges_insert_of_mem (Sym2.mem_mk_left _ _), outerEdges_eq_empty hT, insert_empty_eq]
  refine ⟨?_, ?_, fun v hv => ?_⟩
  · rw [innerEdges_insert_of_mem (Sym2.mem_mk_left _ _),
      innerEdges_insert_of_mem (Sym2.mem_mk_left _ _), innerEdges_eq_self hT]
    exact hT
  · rw [houter]
    exact Finset.card_pair fun heq => hab (Sym2.congr_right.mp heq)
  · have hmem := mem_outerEdges.mpr ⟨hv, Sym2.mem_mk_left _ _⟩
    rw [houter, Finset.mem_insert, Finset.mem_singleton, Sym2.congr_right,
      Sym2.congr_right] at hmem
    obtain rfl | rfl := hmem
    · exact ha
    · exact hb

namespace IsOneTree

variable {n : ℕ} {S T : Finset (Sym2 ℕ)} {e f : Sym2 ℕ} {a b v : ℕ}

theorem exchange_inner (hT : IsOneTree n T) (he : designated ∉ e) (hf : designated ∉ f)
    (htree : IsSpanningTree (innerNodes n) (insert e ((innerEdges T).erase f))) :
    IsOneTree n (insert e (T.erase f)) := by
  have houter : outerEdges (insert e (T.erase f)) = outerEdges T := by
    rw [outerEdges_insert_of_notMem he, outerEdges_erase_of_notMem hf]
  refine ⟨?_, ?_, fun v hv => ?_⟩
  · rwa [innerEdges_insert_of_notMem he, innerEdges_erase]
  · rw [houter]
    exact hT.two
  · have hmem : s(designated, v) ∈ outerEdges T := by
      rw [← houter]
      exact mem_outerEdges.mpr ⟨hv, Sym2.mem_mk_left _ _⟩
    exact hT.outer v (mem_outerEdges.mp hmem).1

theorem exchange_outer (hT : IsOneTree n T) (hv : v ∈ innerNodes n)
    (hvT : s(designated, v) ∉ T) (hf : f ∈ outerEdges T) :
    IsOneTree n (insert s(designated, v) (T.erase f)) := by
  have hdv : designated ∈ s(designated, v) := Sym2.mem_mk_left _ _
  obtain ⟨hfT, hdf⟩ := mem_outerEdges.mp hf
  refine ⟨?_, ?_, fun w hw => ?_⟩
  · rw [innerEdges_insert_of_mem hdv, innerEdges_erase_of_mem hdf]
    exact hT.inner
  · have hnot : s(designated, v) ∉ (outerEdges T).erase f := fun h =>
      hvT (mem_outerEdges.mp (Finset.mem_of_mem_erase h)).1
    rw [outerEdges_insert_of_mem hdv, outerEdges_erase, Finset.card_insert_of_notMem hnot,
      Finset.card_erase_add_one hf]
    exact hT.two
  · obtain heq | hw := Finset.mem_insert.mp hw
    · rw [Sym2.congr_right.mp heq]
      exact hv
    · exact hT.outer w (Finset.mem_of_mem_erase hw)

/-- An inner edge can only replace an inner one. -/
theorem exchange_inner_iff (hT : IsOneTree n T) (ha : a ∈ innerNodes n) (hb : b ∈ innerNodes n)
    (habT : s(a, b) ∉ T) (hf : f ∈ T) :
    IsOneTree n (insert s(a, b) (T.erase f)) ↔
      designated ∉ f ∧ ¬ Joined ((innerEdges T).erase f) a b := by
  have hab := not_mem_inner ha hb
  have habI : s(a, b) ∉ innerEdges T := fun h => habT (mem_innerEdges.mp h).1
  constructor
  · intro h
    have hdf : designated ∉ f := by
      intro hdf
      have htwo := h.two
      rw [outerEdges_insert_of_notMem hab, outerEdges_erase,
        Finset.card_erase_of_mem (mem_outerEdges.mpr ⟨hf, hdf⟩), hT.two] at htwo
      omega
    have hinner := h.inner
    rw [innerEdges_insert_of_notMem hab, innerEdges_erase] at hinner
    exact ⟨hdf, IsSpanningTree.not_joined_of_exchange habI hinner⟩
  · rintro ⟨hdf, hneeded⟩
    exact hT.exchange_inner hab hdf
      (hT.inner.exchange (mem_innerEdges.mpr ⟨hf, hdf⟩) ha hb hneeded)

/-- An edge of the designated node can only replace an edge of that node. -/
theorem exchange_outer_iff (hT : IsOneTree n T) (hv : v ∈ innerNodes n)
    (hvT : s(designated, v) ∉ T) (hf : f ∈ T) :
    IsOneTree n (insert s(designated, v) (T.erase f)) ↔ designated ∈ f := by
  constructor
  · intro h
    by_contra hdf
    have htwo := h.two
    have hnot : s(designated, v) ∉ outerEdges T := fun h => hvT (mem_outerEdges.mp h).1
    rw [outerEdges_insert_of_mem (Sym2.mem_mk_left _ _), outerEdges_erase_of_notMem hdf,
      Finset.card_insert_of_notMem hnot, hT.two] at htwo
    omega
  · intro hdf
    exact hT.exchange_outer hv hvT (mem_outerEdges.mpr ⟨hf, hdf⟩)

theorem exists_exchange (hS : IsOneTree n S) (hT : IsOneTree n T) (heS : e ∈ S) (heT : e ∉ T) :
    ∃ f ∈ T, f ∉ S ∧ IsOneTree n (insert e (T.erase f)) ∧ IsOneTree n (insert f (S.erase e)) := by
  by_cases he : designated ∈ e
  · have heS' : e ∈ outerEdges S := mem_outerEdges.mpr ⟨heS, he⟩
    -- the other one-tree has as many edges at the designated node
    have hnot : ¬ outerEdges T ⊆ outerEdges S := by
      intro hsub
      have heq := Finset.eq_of_subset_of_card_le hsub (hS.two.trans hT.two.symm).le
      exact heT (mem_outerEdges.mp (heq ▸ heS')).1
    obtain ⟨f, hfT, hfS⟩ := Finset.not_subset.mp hnot
    obtain ⟨hf, hdf⟩ := mem_outerEdges.mp hfT
    have hfS' : f ∉ S := fun h => hfS (mem_outerEdges.mpr ⟨h, hdf⟩)
    obtain ⟨v, rfl⟩ := exists_eq_of_mem he
    obtain ⟨w, rfl⟩ := exists_eq_of_mem hdf
    exact ⟨_, hf, hfS', hT.exchange_outer (hS.outer v heS) heT hfT,
      hS.exchange_outer (hT.outer w hf) hfS' heS'⟩
  · obtain ⟨f, hfT, hfS, hT', hS'⟩ := hS.inner.exists_exchange hT.inner
      (mem_innerEdges.mpr ⟨heS, he⟩) fun h => heT (mem_innerEdges.mp h).1
    obtain ⟨hf, hdf⟩ := mem_innerEdges.mp hfT
    exact ⟨f, hf, fun h => hfS (mem_innerEdges.mpr ⟨h, hdf⟩), hT.exchange_inner he hdf hT',
      hS.exchange_inner hdf he hS'⟩

theorem eq_of_subset (hS : IsOneTree n S) (hT : IsOneTree n T) (hST : S ⊆ T) : S = T := by
  apply eq_of_inner_outer
  · exact hT.inner.eq_of_subset hS.inner (Finset.filter_subset_filter _ hST)
  · exact Finset.eq_of_subset_of_card_le (Finset.filter_subset_filter _ hST)
      (hT.two.trans hS.two.symm).le

end IsOneTree

theorem exchanges_oneTree (n : ℕ) : Exchanges (IsOneTree n) where
  eq_of_subset hS hT hST := hS.eq_of_subset hT hST
  exchange hS hT heS heT := hS.exists_exchange hT heS heT

end GraphInterval
