import GraphInterval.Scalar.Exact
import Mathlib.Algebra.BigOperators.Group.Finset.Basic
import Mathlib.Algebra.Order.BigOperators.Group.Finset
import Mathlib.Algebra.Order.Ring.Rat
import Mathlib.Data.Sym.Sym2
import Mathlib.Tactic.Linarith
import Mathlib.Tactic.Ring

/-!
# Cheapest bases

The spanning trees of a graph, and its one-trees, are families of edge sets
that exchange edges: every edge of one member has a partner in any other
member such that both remain members when the two edges are swapped.  Of such
a family the members that hold all mandatory edges and consist of possible
ones are of interest.  One of them is a cheapest one as soon as no possible
edge is cheaper than an optional edge that it could replace, and the cheapest
members with a given edge, or without one, are one exchange away from it.
-/

namespace GraphInterval

/-- No member of the family contains another one, and members exchange edges. -/
structure Exchanges (B : Finset (Sym2 ℕ) → Prop) : Prop where
  eq_of_subset : ∀ {S T}, B S → B T → S ⊆ T → S = T
  exchange : ∀ {S T e}, B S → B T → e ∈ S → e ∉ T →
    ∃ f ∈ T, f ∉ S ∧ B (insert e (T.erase f)) ∧ B (insert f (S.erase e))

/-- A member of possible edges that has all mandatory ones. -/
structure Candidate (B : Finset (Sym2 ℕ) → Prop) (M U : Set (Sym2 ℕ)) (S : Finset (Sym2 ℕ)) :
    Prop where
  base : B S
  mandatory : ∀ e ∈ M, e ∈ S
  possible : ∀ e ∈ S, e ∈ U

/-- The sum of the costs of the edges. -/
def totalCost (cost : Sym2 ℕ → ℚ) (S : Finset (Sym2 ℕ)) : ℚ := ∑ e ∈ S, cost e

/-- A candidate of least cost. -/
structure IsCheapest (B : Finset (Sym2 ℕ) → Prop) (M U : Set (Sym2 ℕ)) (cost : Sym2 ℕ → ℚ)
    (T : Finset (Sym2 ℕ)) : Prop where
  candidate : Candidate B M U T
  le : ∀ S, Candidate B M U S → totalCost cost T ≤ totalCost cost S

variable {B : Finset (Sym2 ℕ) → Prop} {M U : Set (Sym2 ℕ)} {cost : Sym2 ℕ → ℚ}
variable {S T : Finset (Sym2 ℕ)} {e f : Sym2 ℕ}

theorem totalCost_insert (he : e ∉ S) :
    totalCost cost (insert e S) = cost e + totalCost cost S := Finset.sum_insert he

theorem totalCost_exchange (hf : f ∈ S) (he : e ∉ S) :
    totalCost cost (insert e (S.erase f)) = totalCost cost S + cost e - cost f := by
  have hsum : totalCost cost (S.erase f) + cost f = totalCost cost S :=
    Finset.sum_erase_add S cost hf
  rw [totalCost_insert fun h => he (Finset.mem_of_mem_erase h), ← hsum]
  ring

/-- A candidate for some mandatory edges is one for fewer of them. -/
theorem Candidate.mono {M' : Set (Sym2 ℕ)} (hS : Candidate B M U S) (hM : M' ⊆ M) :
    Candidate B M' U S :=
  ⟨hS.base, fun e he => hS.mandatory e (hM he), hS.possible⟩

/-- Replacing an optional edge by a possible one keeps a candidate. -/
theorem Candidate.replace (hS : Candidate B M U S) (hf : f ∉ M) (he : e ∈ U)
    (hbase : B (insert e (S.erase f))) : Candidate B M U (insert e (S.erase f)) := by
  refine ⟨hbase, fun d hd => ?_, fun d hd => ?_⟩
  · apply Finset.mem_insert_of_mem
    exact Finset.mem_erase.mpr ⟨fun heq => hf (heq ▸ hd), hS.mandatory d hd⟩
  · obtain rfl | hd := Finset.mem_insert.mp hd
    · exact he
    · exact hS.possible d (Finset.mem_of_mem_erase hd)

/-- Exchanging edges one by one leads from a locally cheapest candidate to any
other one without lowering the cost. -/
theorem Candidate.isCheapest (hB : Exchanges B) (hT : Candidate B M U T)
    (hlocal : ∀ e ∈ U, e ∉ T → ∀ f ∈ T, f ∉ M → B (insert e (T.erase f)) → cost f ≤ cost e) :
    IsCheapest B M U cost T := by
  refine ⟨hT, fun S hS => ?_⟩
  -- induction on the number of edges in which the other member differs
  induction hn : (S \ T).card using Nat.strong_induction_on generalizing S with
  | h n ih =>
  obtain hempty | ⟨e, he⟩ := (S \ T).eq_empty_or_nonempty
  · rw [hB.eq_of_subset hS.base hT.base (Finset.sdiff_eq_empty_iff_subset.mp hempty)]
  obtain ⟨heS, heT⟩ := Finset.mem_sdiff.mp he
  obtain ⟨f, hfT, hfS, hT', hS'⟩ := hB.exchange hS.base hT.base heS heT
  have hfM : f ∉ M := fun hf => hfS (hS.mandatory f hf)
  have heM : e ∉ M := fun he => heT (hT.mandatory e he)
  have hcandidate := hS.replace heM (hT.possible f hfT) hS'
  have hless : ((insert f (S.erase e)) \ T).card < n := by
    rw [Finset.insert_sdiff_of_mem _ hfT, Finset.erase_sdiff_comm, ← hn]
    exact Finset.card_erase_lt_of_mem he
  calc totalCost cost T
      ≤ totalCost cost (insert f (S.erase e)) := ih _ hless _ hcandidate rfl
    _ = totalCost cost S + cost f - cost e := totalCost_exchange heS hfS
    _ ≤ totalCost cost S := by
        have hle := hlocal e (hS.possible e heS) heT f hfT hfM hT'
        linarith

namespace IsCheapest

/-- Cheapest candidates cost the same. -/
theorem totalCost_eq (hS : IsCheapest B M U cost S) (hT : IsCheapest B M U cost T) :
    totalCost cost S = totalCost cost T :=
  le_antisymm (hS.le T hT.candidate) (hT.le S hS.candidate)

/-- No exchange improves a cheapest candidate. -/
theorem le_of_exchange (hT : IsCheapest B M U cost T) (he : e ∈ U) (heT : e ∉ T) (hf : f ∈ T)
    (hfM : f ∉ M) (hbase : B (insert e (T.erase f))) : cost f ≤ cost e := by
  have hle := hT.le _ (hT.candidate.replace hfM he hbase)
  rw [totalCost_exchange hf heT] at hle
  linarith

/-- A candidate with an edge that the cheapest one lacks costs at least as much as one exchange. -/
theorem exists_exchange_including (hB : Exchanges B) (hT : IsCheapest B M U cost T)
    (hS : Candidate B M U S) (heS : e ∈ S) (heT : e ∉ T) :
    ∃ f ∈ T, f ∉ M ∧ B (insert e (T.erase f)) ∧
      totalCost cost T + cost e - cost f ≤ totalCost cost S := by
  obtain ⟨f, hfT, hfS, hT', hS'⟩ := hB.exchange hS.base hT.candidate.base heS heT
  have hfM : f ∉ M := fun hf => hfS (hS.mandatory f hf)
  have heM : e ∉ M := fun he => heT (hT.candidate.mandatory e he)
  have hle := hT.le _ (hS.replace heM (hT.candidate.possible f hfT) hS')
  rw [totalCost_exchange heS hfS] at hle
  exact ⟨f, hfT, hfM, hT', by linarith⟩

/-- A candidate without an edge of the cheapest one costs at least as much as one exchange. -/
theorem exists_exchange_excluding (hB : Exchanges B) (hT : IsCheapest B M U cost T)
    (hS : Candidate B M U S) (heT : e ∈ T) (heS : e ∉ S) :
    ∃ f ∈ U, f ∉ T ∧ B (insert f (T.erase e)) ∧
      totalCost cost T + cost f - cost e ≤ totalCost cost S := by
  obtain ⟨f, hfS, hfT, hS', hT'⟩ := hB.exchange hT.candidate.base hS.base heT heS
  have hfM : f ∉ M := fun hf => hfT (hT.candidate.mandatory f hf)
  have hle := hT.le _ (hS.replace hfM (hT.candidate.possible e heT) hS')
  rw [totalCost_exchange hfS heS] at hle
  exact ⟨f, hS.possible f hfS, hfT, hT', by linarith⟩

end IsCheapest

/-! ### The cost of including or excluding an edge -/

/-- The least cost of the edge sets with a property; infinite if there is none. -/
def IsLeastCost (cost : Sym2 ℕ → ℚ) (P : Finset (Sym2 ℕ) → Prop) (x : Exact) : Prop :=
  (x = .top ∧ ∀ S, ¬ P S) ∨
    ∃ S, P S ∧ x = .number (totalCost cost S) ∧ ∀ R, P R → totalCost cost S ≤ totalCost cost R

theorem IsLeastCost.congr {P Q : Finset (Sym2 ℕ) → Prop} {x : Exact} (h : IsLeastCost cost P x)
    (hPQ : ∀ S, P S ↔ Q S) : IsLeastCost cost Q x := by
  have heq : P = Q := funext fun S => propext (hPQ S)
  exact heq ▸ h

theorem IsLeastCost.unique {P : Finset (Sym2 ℕ) → Prop} {x y : Exact} (hx : IsLeastCost cost P x)
    (hy : IsLeastCost cost P y) : x = y := by
  obtain ⟨rfl, hnone⟩ | ⟨S, hS, rfl, hmin⟩ := hx
  · obtain ⟨rfl, -⟩ | ⟨R, hR, -⟩ := hy
    · rfl
    · exact absurd hR (hnone R)
  · obtain ⟨-, hnone⟩ | ⟨R, hR, rfl, hmin'⟩ := hy
    · exact absurd hS (hnone S)
    · rw [le_antisymm (hmin R hR) (hmin' S hS)]

/-- Including an edge costs as much as exchanging it for the most expensive optional edge that it
can replace. -/
theorem IsCheapest.isLeastCost_including (hB : Exchanges B) (hT : IsCheapest B M U cost T)
    (he : e ∈ U) (heT : e ∉ T) {m : Exact}
    (hm : (m = .top ∧ ∀ d ∈ T, d ∉ M → ¬ B (insert e (T.erase d))) ∨
      ∃ f ∈ T, f ∉ M ∧ B (insert e (T.erase f)) ∧ m = .number (cost e - cost f) ∧
        ∀ d ∈ T, d ∉ M → B (insert e (T.erase d)) → cost d ≤ cost f) :
    IsLeastCost cost (fun S => Candidate B M U S ∧ e ∈ S) (.number (totalCost cost T) + m) := by
  obtain ⟨rfl, hnone⟩ | ⟨f, hf, hfM, hbase, rfl, hmax⟩ := hm
  · refine .inl ⟨Exact.number_add_top, ?_⟩
    rintro S ⟨hS, heS⟩
    obtain ⟨d, hd, hdM, hbase, -⟩ := hT.exists_exchange_including hB hS heS heT
    exact hnone d hd hdM hbase
  · refine .inr ⟨insert e (T.erase f), ⟨hT.candidate.replace hfM he hbase,
      Finset.mem_insert_self _ _⟩, ?_, ?_⟩
    · rw [Exact.number_add_number, totalCost_exchange hf heT, add_sub_assoc]
    · rintro R ⟨hR, heR⟩
      obtain ⟨d, hd, hdM, hbase', hle⟩ := hT.exists_exchange_including hB hR heR heT
      have hdf := hmax d hd hdM hbase'
      rw [totalCost_exchange hf heT]
      linarith

/-- Excluding an optional edge costs as much as exchanging it for the cheapest edge that can
replace it. -/
theorem IsCheapest.isLeastCost_excluding (hB : Exchanges B) (hT : IsCheapest B M U cost T)
    (heT : e ∈ T) (heM : e ∉ M) {m : Exact}
    (hm : (m = .top ∧ ∀ d ∈ U, d ∉ T → ¬ B (insert d (T.erase e))) ∨
      ∃ f ∈ U, f ∉ T ∧ B (insert f (T.erase e)) ∧ m = .number (cost f - cost e) ∧
        ∀ d ∈ U, d ∉ T → B (insert d (T.erase e)) → cost f ≤ cost d) :
    IsLeastCost cost (fun S => Candidate B M U S ∧ e ∉ S) (.number (totalCost cost T) + m) := by
  obtain ⟨rfl, hnone⟩ | ⟨f, hf, hfT, hbase, rfl, hmin⟩ := hm
  · refine .inl ⟨Exact.number_add_top, ?_⟩
    rintro S ⟨hS, heS⟩
    obtain ⟨d, hd, hdT, hbase, -⟩ := hT.exists_exchange_excluding hB hS heT heS
    exact hnone d hd hdT hbase
  · have hne : e ≠ f := fun heq => hfT (heq ▸ heT)
    refine .inr ⟨insert f (T.erase e), ⟨hT.candidate.replace heM hf hbase, ?_⟩, ?_, ?_⟩
    · rw [Finset.mem_insert]
      exact not_or.mpr ⟨hne, Finset.notMem_erase e T⟩
    · rw [Exact.number_add_number, totalCost_exchange heT hfT, add_sub_assoc]
    · rintro R ⟨hR, heR⟩
      obtain ⟨d, hd, hdT, hbase', hle⟩ := hT.exists_exchange_excluding hB hR heT heR
      have hdf := hmin d hd hdT hbase'
      rw [totalCost_exchange heT hfT]
      linarith

end GraphInterval
