import GraphInterval.Proofs.Tree.Forest
import GraphInterval.Proofs.Tree.Minimal

/-!
# Spanning trees

A spanning tree of a set of nodes is a forest inside of it that joins all of
its nodes.  Removing one of its edges leaves two parts, and every edge between
the two parts may take its place.  An edge of another spanning tree can
therefore be exchanged for one on the path between its endpoints, and for one
that the other tree gets in return.  A forest is a spanning tree if and only if
it has one edge less than there are nodes.
-/

namespace GraphInterval

/-- A forest inside of a set of nodes that joins all of them. -/
structure IsSpanningTree (V : Finset ℕ) (T : Finset (Sym2 ℕ)) : Prop where
  inside : ∀ x y, s(x, y) ∈ T → x ∈ V ∧ y ∈ V
  forest : IsForest T
  joined : ∀ x ∈ V, ∀ y ∈ V, Joined T x y

variable {V : Finset ℕ} {S T : Finset (Sym2 ℕ)} {a b x y : ℕ}

namespace IsSpanningTree

/-- An edge is replaced by one that reconnects the two parts of the tree. -/
theorem exchange (hT : IsSpanningTree V T) {f : Sym2 ℕ} (hf : f ∈ T) (ha : a ∈ V) (hb : b ∈ V)
    (hab : ¬ Joined (T.erase f) a b) : IsSpanningTree V (insert s(a, b) (T.erase f)) := by
  induction f with
  | h u v =>
  have hmono : ∀ {p q}, Joined (T.erase s(u, v)) p q →
      Joined (insert s(a, b) (T.erase s(u, v))) p q :=
    Joined.mono (Finset.subset_insert _ _)
  have hnew : Joined (insert s(a, b) (T.erase s(u, v))) a b :=
    Joined.edge (Finset.mem_insert_self _ _)
  have huv : Joined (insert s(a, b) (T.erase s(u, v))) u v := by
    obtain h | ⟨h, h'⟩ | ⟨h, h'⟩ := (hT.joined a ha b hb).erase u v
    · exact absurd h hab
    · exact ((hmono h).symm.trans hnew).trans (hmono h').symm
    · exact ((hmono h').trans hnew.symm).trans (hmono h)
  refine ⟨fun x y hxy => ?_, (hT.forest.mono (Finset.erase_subset _ _)).insert hab,
    fun x hx y hy => ?_⟩
  · obtain heq | hxy := Finset.mem_insert.mp hxy
    · obtain ⟨rfl, rfl⟩ | ⟨rfl, rfl⟩ := Sym2.eq_iff.mp heq
      · exact ⟨ha, hb⟩
      · exact ⟨hb, ha⟩
    · exact hT.inside x y (Finset.mem_of_mem_erase hxy)
  · obtain h | ⟨h, h'⟩ | ⟨h, h'⟩ := (hT.joined x hx y hy).erase u v
    · exact hmono h
    · exact ((hmono h).trans huv).trans (hmono h')
    · exact ((hmono h).trans huv.symm).trans (hmono h')

/-- An edge that leaves a set of nodes takes the place of a tree edge that does. -/
theorem exists_exchange_crossing (hT : IsSpanningTree V T) {A : ℕ → Prop} (ha : a ∈ V)
    (hb : b ∈ V) (hA : A a) (hB : ¬ A b) :
    ∃ x y, s(x, y) ∈ T ∧ A x ∧ ¬ A y ∧ ¬ Joined (T.erase s(x, y)) a b :=
  hT.forest.exists_needed_crossing (hT.joined a ha b hb) hA hB

/-- Two spanning trees exchange edges. -/
theorem exists_exchange (hS : IsSpanningTree V S) (hT : IsSpanningTree V T) {e : Sym2 ℕ}
    (heS : e ∈ S) (heT : e ∉ T) :
    ∃ f ∈ T, f ∉ S ∧ IsSpanningTree V (insert e (T.erase f)) ∧
      IsSpanningTree V (insert f (S.erase e)) := by
  induction e with
  | h a b =>
  obtain ⟨ha, hb⟩ := hS.inside a b heS
  -- the part of the first tree that keeps `a` without the edge
  obtain ⟨x, y, hxy, hx, hy, hneeded⟩ := hT.exists_exchange_crossing
    (A := Joined (S.erase s(a, b)) a) ha hb (Joined.refl _ a) (hS.forest a b heS)
  have hxyS : s(x, y) ∉ S := by
    intro hmem
    have hne : s(x, y) ≠ s(a, b) := fun heq => heT (heq ▸ hxy)
    exact hy (hx.trans (Joined.edge (Finset.mem_erase.mpr ⟨hne, hmem⟩)))
  obtain ⟨hxV, hyV⟩ := hT.inside x y hxy
  exact ⟨s(x, y), hxy, hxyS, hT.exchange hxy ha hb hneeded,
    hS.exchange heS hxV hyV fun hjoined => hy (hx.trans hjoined)⟩

theorem eq_of_subset (hT : IsSpanningTree V T) (hS : IsSpanningTree V S) (hST : S ⊆ T) :
    S = T := by
  apply Finset.Subset.antisymm hST
  intro e he
  induction e with
  | h x y =>
  by_contra hnot
  obtain ⟨hx, hy⟩ := hT.inside x y he
  apply hT.forest x y he
  apply (hS.joined x hx y hy).mono
  intro f hf
  exact Finset.mem_erase.mpr ⟨fun heq => hnot (heq ▸ hf), hST hf⟩

/-- An edge that takes the place of another one joins the two parts. -/
theorem not_joined_of_exchange {f : Sym2 ℕ} (habT : s(a, b) ∉ T)
    (hT' : IsSpanningTree V (insert s(a, b) (T.erase f))) : ¬ Joined (T.erase f) a b := by
  have hforest := hT'.forest a b (Finset.mem_insert_self _ _)
  rwa [Finset.erase_insert fun h => habT (Finset.mem_of_mem_erase h)] at hforest

theorem singleton (a : ℕ) : IsSpanningTree {a} ∅ := by
  refine ⟨fun x y h => absurd h (Finset.notMem_empty _), IsForest.empty, fun x hx y hy => ?_⟩
  rw [Finset.mem_singleton.mp hx, Finset.mem_singleton.mp hy]
  exact Joined.refl ∅ a

/-- A node outside of the tree is attached to one of its nodes. -/
theorem insert_leaf (hT : IsSpanningTree V T) (hx : x ∉ V) (hy : y ∈ V) :
    IsSpanningTree (insert x V) (insert s(y, x) T) := by
  have hapart : ¬ Joined T y x := fun hjoined =>
    hx (hjoined.closed (A := (· ∈ V)) (fun u v huv _ => (hT.inside u v huv).2) hy)
  have hto : ∀ u ∈ insert x V, Joined (insert s(y, x) T) u y := by
    intro u hu
    obtain rfl | hu := Finset.mem_insert.mp hu
    · exact (Joined.edge (Finset.mem_insert_self _ _)).symm
    · exact (hT.joined u hu y hy).mono (Finset.subset_insert _ _)
  refine ⟨fun u v huv => ?_, hT.forest.insert hapart, fun u hu v hv =>
    (hto u hu).trans (hto v hv).symm⟩
  obtain heq | huv := Finset.mem_insert.mp huv
  · have hxV := Finset.mem_insert_self x V
    have hyV := Finset.mem_insert_of_mem (b := x) hy
    obtain ⟨rfl, rfl⟩ | ⟨rfl, rfl⟩ := Sym2.eq_iff.mp heq
    · exact ⟨hyV, hxV⟩
    · exact ⟨hxV, hyV⟩
  · obtain ⟨hu, hv⟩ := hT.inside u v huv
    exact ⟨Finset.mem_insert_of_mem hu, Finset.mem_insert_of_mem hv⟩

end IsSpanningTree

/-! ### Counting edges -/

/-- The nodes that are the first ones of their component. -/
noncomputable def firsts (V : Finset ℕ) (F : Finset (Sym2 ℕ)) : Finset ℕ := by
  classical exact V.filter fun a => ∀ x ∈ V, Joined F a x → a ≤ x

theorem mem_firsts {F : Finset (Sym2 ℕ)} :
    a ∈ firsts V F ↔ a ∈ V ∧ ∀ x ∈ V, Joined F a x → a ≤ x := by
  classical simp [firsts]

theorem exists_first {F : Finset (Sym2 ℕ)} (ha : a ∈ V) :
    ∃ r ∈ firsts V F, Joined F a r := by
  classical
  have hne : (V.filter (Joined F a)).Nonempty :=
    ⟨a, Finset.mem_filter.mpr ⟨ha, Joined.refl F a⟩⟩
  obtain ⟨hr, hjoined⟩ := Finset.mem_filter.mp (Finset.min'_mem _ hne)
  refine ⟨_, mem_firsts.mpr ⟨hr, fun x hx hrx => ?_⟩, hjoined⟩
  exact Finset.min'_le _ _ (Finset.mem_filter.mpr ⟨hx, hjoined.trans hrx⟩)

theorem eq_of_firsts {F : Finset (Sym2 ℕ)} (ha : a ∈ firsts V F) (hb : b ∈ firsts V F)
    (hab : Joined F a b) : a = b := by
  obtain ⟨haV, ha⟩ := mem_firsts.mp ha
  obtain ⟨hbV, hb⟩ := mem_firsts.mp hb
  exact le_antisymm (ha b hbV hab) (hb a haV hab.symm)

/-- An edge between two components makes one of their first nodes superfluous. -/
theorem card_firsts_insert {F : Finset (Sym2 ℕ)} (hx : x ∈ V) (hy : y ∈ V)
    (hxy : ¬ Joined F x y) :
    (firsts V (insert s(x, y) F)).card + 1 = (firsts V F).card := by
  -- the component with the larger first node is the one that loses it
  wlog hle : ∀ r ∈ firsts V F, ∀ r' ∈ firsts V F, Joined F x r → Joined F y r' → r ≤ r'
    generalizing x y
  · rw [Sym2.eq_swap]
    apply this hy hx (fun h => hxy h.symm)
    intro r hr r' hr' hyr hxr'
    by_contra hlt
    apply hle
    intro p hp p' hp' hxp hyp'
    rw [eq_of_firsts hp hr' (hxp.symm.trans hxr'), eq_of_firsts hp' hr (hyp'.symm.trans hyr)]
    omega
  obtain ⟨r, hr, hxr⟩ := exists_first (F := F) hx
  obtain ⟨r', hr', hyr'⟩ := exists_first (F := F) hy
  have hrr' := hle r hr r' hr' hxr hyr'
  have hne : r ≠ r' := by
    rintro rfl
    exact hxy (hxr.trans hyr'.symm)
  suffices h : firsts V (insert s(x, y) F) = (firsts V F).erase r' by
    rw [h, Finset.card_erase_add_one hr']
  ext a
  rw [Finset.mem_erase, mem_firsts, mem_firsts]
  constructor
  · rintro ⟨ha, hmin⟩
    refine ⟨?_, ha, fun z hz haz => hmin z hz (haz.mono (Finset.subset_insert _ _))⟩
    rintro rfl
    have hle' := hmin r (mem_firsts.mp hr).1
      (Joined.insert_iff.mpr (.inr (.inr ⟨hyr'.symm, hxr⟩)))
    omega
  · rintro ⟨har', ha, hmin⟩
    refine ⟨ha, fun z hz haz => ?_⟩
    have hfirst : a ∈ firsts V F := mem_firsts.mpr ⟨ha, hmin⟩
    obtain h | ⟨h, h'⟩ | ⟨h, h'⟩ := Joined.insert_iff.mp haz
    · exact hmin z hz h
    · -- `a` is the first node of `x`, and `z` lies in the component of `y`
      have har : a = r := eq_of_firsts hfirst hr (h.trans hxr)
      have hz' := (mem_firsts.mp hr').2 z hz (hyr'.symm.trans h')
      omega
    · exact absurd (eq_of_firsts hfirst hr' (h.trans hyr')) har'

theorem firsts_empty (V : Finset ℕ) : firsts V ∅ = V := by
  ext a
  rw [mem_firsts]
  refine and_iff_left_of_imp fun _ x _ hax => ?_
  cases hax with
  | refl => exact le_refl a
  | tail _ hedge => exact absurd hedge (Finset.notMem_empty _)

/-- A forest has one edge for every node that is not the first one of its component. -/
theorem IsForest.card_add_card_firsts {F : Finset (Sym2 ℕ)} (hF : IsForest F)
    (hinside : ∀ x y, s(x, y) ∈ F → x ∈ V ∧ y ∈ V) : F.card + (firsts V F).card = V.card := by
  induction F using Finset.induction_on with
  | empty => rw [firsts_empty, Finset.card_empty, Nat.zero_add]
  | insert e F he ih =>
      induction e with
      | h x y =>
      have hxy : ¬ Joined F x y := by
        have := hF x y (Finset.mem_insert_self _ _)
        rwa [Finset.erase_insert he] at this
      obtain ⟨hx, hy⟩ := hinside x y (Finset.mem_insert_self _ _)
      have hcard := ih (hF.mono (Finset.subset_insert _ _))
        fun u v huv => hinside u v (Finset.mem_insert_of_mem huv)
      have hless := card_firsts_insert hx hy hxy
      rw [Finset.card_insert_of_notMem he]
      omega

/-- A forest is a spanning tree if and only if it has one edge less than there are nodes. -/
theorem IsForest.isSpanningTree_iff {F : Finset (Sym2 ℕ)} (hF : IsForest F)
    (hinside : ∀ x y, s(x, y) ∈ F → x ∈ V ∧ y ∈ V) (hV : V.Nonempty) :
    IsSpanningTree V F ↔ F.card + 1 = V.card := by
  have hcard := hF.card_add_card_firsts hinside
  obtain ⟨v, hv⟩ := hV
  obtain ⟨r, hr, -⟩ := exists_first (F := F) hv
  constructor
  · intro hT
    have hone : firsts V F = {r} := by
      rw [Finset.eq_singleton_iff_unique_mem]
      refine ⟨hr, fun a ha => eq_of_firsts ha hr ?_⟩
      exact hT.joined a (mem_firsts.mp ha).1 r (mem_firsts.mp hr).1
    rw [hone, Finset.card_singleton] at hcard
    exact hcard
  · intro hsize
    have hone : (firsts V F).card = 1 := by omega
    obtain ⟨q, hq⟩ := Finset.card_eq_one.mp hone
    have hjoined : ∀ x ∈ V, Joined F x q := by
      intro x hx
      obtain ⟨p, hp, hxp⟩ := exists_first (F := F) hx
      rw [hq, Finset.mem_singleton] at hp
      exact hp ▸ hxp
    exact ⟨hinside, hF, fun x hx y hy => (hjoined x hx).trans (hjoined y hy).symm⟩

end GraphInterval
