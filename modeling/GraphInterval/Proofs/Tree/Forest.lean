import Mathlib.Data.Finset.Max
import Mathlib.Data.Finset.Sym
import Mathlib.Data.Sym.Sym2
import Mathlib.Logic.Relation

/-!
# Forests

Edges are unordered pairs of nodes, and a set of edges joins two nodes if a
path of its edges leads from one to the other.  A forest is a set of edges in
which every edge is needed to join its endpoints.  What one edge adds to or
takes from the pairs that are joined is the subject of this module; the
exchanges of edges between spanning trees rest on it.
-/

namespace GraphInterval

/-- A path of edges leads from one node to the other. -/
def Joined (F : Finset (Sym2 ℕ)) : ℕ → ℕ → Prop :=
  Relation.ReflTransGen fun x y => s(x, y) ∈ F

/-- Every edge is needed to join its endpoints. -/
def IsForest (F : Finset (Sym2 ℕ)) : Prop :=
  ∀ x y, s(x, y) ∈ F → ¬ Joined (F.erase s(x, y)) x y

variable {F G : Finset (Sym2 ℕ)} {a b c x y : ℕ}

namespace Joined

theorem refl (F : Finset (Sym2 ℕ)) (a : ℕ) : Joined F a a := Relation.ReflTransGen.refl

theorem trans (hab : Joined F a b) (hbc : Joined F b c) : Joined F a c :=
  Relation.ReflTransGen.trans hab hbc

theorem edge (h : s(a, b) ∈ F) : Joined F a b := Relation.ReflTransGen.single h

theorem symm (h : Joined F a b) : Joined F b a := by
  induction h with
  | refl => exact refl F a
  | tail _ hedge ih =>
      rw [Sym2.eq_swap] at hedge
      exact (edge hedge).trans ih

theorem mono (hFG : F ⊆ G) (h : Joined F a b) : Joined G a b := by
  induction h with
  | refl => exact refl G a
  | tail _ hedge ih => exact ih.trans (edge (hFG hedge))

/-- A property that every edge passes on holds along a path. -/
theorem closed {A : ℕ → Prop} (h : Joined F a b)
    (hA : ∀ x y, s(x, y) ∈ F → A x → A y) (ha : A a) : A b := by
  induction h with
  | refl => exact ha
  | tail _ hedge ih => exact hA _ _ hedge ih

/-- A path that leaves a set of nodes has an edge that does. -/
theorem exists_crossing {A : ℕ → Prop} (h : Joined F a b) (ha : A a) (hb : ¬ A b) :
    ∃ x y, s(x, y) ∈ F ∧ A x ∧ ¬ A y := by
  by_contra hnone
  apply hb
  apply h.closed _ ha
  intro x y hedge hx
  by_contra hy
  exact hnone ⟨x, y, hedge, hx, hy⟩

/-- A path through one more edge uses it not at all, or in one of its directions. -/
theorem insert_iff : Joined (insert s(x, y) F) a b ↔
    Joined F a b ∨ (Joined F a x ∧ Joined F y b) ∨ (Joined F a y ∧ Joined F x b) := by
  constructor
  · intro h
    induction h with
    | refl => exact .inl (refl F a)
    | @tail c d _ hedge ih =>
        obtain heq | hedge := Finset.mem_insert.mp hedge
        · -- the last edge is the new one
          obtain ⟨rfl, rfl⟩ | ⟨rfl, rfl⟩ := Sym2.eq_iff.mp heq
          · obtain h | ⟨h, -⟩ | ⟨h, -⟩ := ih
            · exact .inr (.inl ⟨h, refl F _⟩)
            · exact .inr (.inl ⟨h, refl F _⟩)
            · exact .inl h
          · obtain h | ⟨h, -⟩ | ⟨h, -⟩ := ih
            · exact .inr (.inr ⟨h, refl F _⟩)
            · exact .inl h
            · exact .inr (.inr ⟨h, refl F _⟩)
        · obtain h | ⟨h, h'⟩ | ⟨h, h'⟩ := ih
          · exact .inl (h.trans (edge hedge))
          · exact .inr (.inl ⟨h, h'.trans (edge hedge)⟩)
          · exact .inr (.inr ⟨h, h'.trans (edge hedge)⟩)
  · have hmono : ∀ {p q}, Joined F p q → Joined (insert s(x, y) F) p q :=
      mono (Finset.subset_insert _ _)
    have hxy : Joined (insert s(x, y) F) x y := edge (Finset.mem_insert_self _ _)
    rintro (h | ⟨h, h'⟩ | ⟨h, h'⟩)
    · exact hmono h
    · exact ((hmono h).trans hxy).trans (hmono h')
    · exact ((hmono h).trans hxy.symm).trans (hmono h')

/-- Without one edge of a path, its ends are joined to the endpoints of that edge. -/
theorem erase (h : Joined F a b) (x y : ℕ) :
    Joined (F.erase s(x, y)) a b ∨
      (Joined (F.erase s(x, y)) a x ∧ Joined (F.erase s(x, y)) y b) ∨
      (Joined (F.erase s(x, y)) a y ∧ Joined (F.erase s(x, y)) x b) := by
  rw [← insert_iff]
  apply h.mono
  intro e he
  by_cases heq : e = s(x, y)
  · exact heq ▸ Finset.mem_insert_self _ _
  · exact Finset.mem_insert_of_mem (Finset.mem_erase.mpr ⟨heq, he⟩)

/-- A least set of edges of a path. -/
theorem exists_minimal (h : Joined F a b) :
    ∃ P ⊆ F, Joined P a b ∧ ∀ e ∈ P, ¬ Joined (P.erase e) a b := by
  induction F using Finset.strongInduction with
  | H F ih =>
      by_cases hless : ∃ e ∈ F, Joined (F.erase e) a b
      · obtain ⟨e, he, hjoined⟩ := hless
        obtain ⟨P, hPF, hP⟩ := ih (F.erase e) (Finset.erase_ssubset he) hjoined
        exact ⟨P, hPF.trans (Finset.erase_subset e F), hP⟩
      · exact ⟨F, Finset.Subset.refl F, h, fun e he hjoined => hless ⟨e, he, hjoined⟩⟩

end Joined

namespace IsForest

theorem empty : IsForest ∅ := fun _ _ h => absurd h (Finset.notMem_empty _)

theorem mono (hFG : F ⊆ G) (hG : IsForest G) : IsForest F := fun x y hedge hjoined =>
  hG x y (hFG hedge) (hjoined.mono (Finset.erase_subset_erase _ hFG))

/-- A forest has no loops. -/
theorem ne (hF : IsForest F) (h : s(x, y) ∈ F) : x ≠ y := by
  rintro rfl
  exact hF x x h (Joined.refl _ x)

/-- An edge between nodes that are not joined keeps a forest. -/
theorem insert (hF : IsForest F) (hxy : ¬ Joined F x y) : IsForest (insert s(x, y) F) := by
  have hnot : s(x, y) ∉ F := fun h => hxy (Joined.edge h)
  intro u v huv hjoined
  obtain heq | huv := Finset.mem_insert.mp huv
  · rw [heq, Finset.erase_insert hnot] at hjoined
    obtain ⟨rfl, rfl⟩ | ⟨rfl, rfl⟩ := Sym2.eq_iff.mp heq
    · exact hxy hjoined
    · exact hxy hjoined.symm
  · have hne : s(x, y) ≠ s(u, v) := fun heq => hnot (heq ▸ huv)
    rw [Finset.erase_insert_of_ne hne, Joined.insert_iff] at hjoined
    have hmono : ∀ {p q}, Joined (F.erase s(u, v)) p q → Joined F p q :=
      Joined.mono (Finset.erase_subset _ _)
    obtain h | ⟨h, h'⟩ | ⟨h, h'⟩ := hjoined
    · exact hF u v huv h
    · exact hxy (((hmono h).symm.trans (Joined.edge huv)).trans (hmono h').symm)
    · exact hxy (((hmono h').trans (Joined.edge huv).symm).trans (hmono h))

/-- A path in a forest needs every edge of any least set of edges that joins its ends. -/
theorem not_joined_erase (hF : IsForest F) {P : Finset (Sym2 ℕ)} (hPF : P ⊆ F)
    (hP : Joined P a b) (hmin : ∀ e ∈ P, ¬ Joined (P.erase e) a b) (hxy : s(x, y) ∈ P) :
    ¬ Joined (F.erase s(x, y)) a b := by
  intro hjoined
  have hmono : ∀ {p q}, Joined (P.erase s(x, y)) p q → Joined (F.erase s(x, y)) p q :=
    Joined.mono (Finset.erase_subset_erase _ hPF)
  apply hF x y (hPF hxy)
  obtain h | ⟨h, h'⟩ | ⟨h, h'⟩ := hP.erase x y
  · exact absurd h (hmin _ hxy)
  · exact ((hmono h).symm.trans hjoined).trans (hmono h').symm
  · exact ((hmono h').trans hjoined.symm).trans (hmono h)

/-- A path that leaves a set of nodes needs an edge that does. -/
theorem exists_needed_crossing (hF : IsForest F) {A : ℕ → Prop} (h : Joined F a b) (ha : A a)
    (hb : ¬ A b) : ∃ x y, s(x, y) ∈ F ∧ A x ∧ ¬ A y ∧ ¬ Joined (F.erase s(x, y)) a b := by
  obtain ⟨P, hPF, hP, hmin⟩ := h.exists_minimal
  obtain ⟨x, y, hxy, hx, hy⟩ := hP.exists_crossing ha hb
  exact ⟨x, y, hPF hxy, hx, hy, hF.not_joined_erase hPF hP hmin hxy⟩

end IsForest

end GraphInterval
