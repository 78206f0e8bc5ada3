import GraphInterval.Iterate
import GraphInterval.Proofs.Tree.Spanning

/-!
# Rooted trees

A spanning tree is rooted by a function that answers the next node on the way
to the root.  A tree edge then separates the nodes below it from all others, so
the path between two nodes consists of the edges that are above exactly one of
them.  A search that hangs the neighbours of every node below it, except for
the node from where it was found, roots the tree.
-/

namespace GraphInterval

/-- Climbing from one node leads to the other. -/
def Below (up : ℕ → ℕ) : ℕ → ℕ → Prop := Relation.ReflTransGen fun x y => up x = y

variable {V W : Finset ℕ} {T : Finset (Sym2 ℕ)} {up : ℕ → ℕ} {a b r u v x y : ℕ}

namespace Below

theorem refl (up : ℕ → ℕ) (v : ℕ) : Below up v v := Relation.ReflTransGen.refl

theorem next (up : ℕ → ℕ) (v : ℕ) : Below up v (up v) := Relation.ReflTransGen.single rfl

theorem trans (hvu : Below up v u) (hux : Below up u x) : Below up v x :=
  Relation.ReflTransGen.trans hvu hux

/-- A node below another one is that node, or so is the next node. -/
theorem eq_or_next (h : Below up v u) : v = u ∨ Below up (up v) u := by
  obtain rfl | ⟨w, rfl, hw⟩ := Relation.ReflTransGen.cases_head h
  · exact .inl rfl
  · exact .inr hw

/-- What a climb keeps at every node holds at its end. -/
theorem closed {A : ℕ → Prop} (h : Below up v u) (hA : ∀ x, A x → A (up x)) (hv : A v) : A u := by
  induction h with
  | refl => exact hv
  | tail _ hstep ih => exact hstep ▸ hA _ ih

/-- Of two nodes above a third one, one is above the other. -/
theorem comparable (hu : Below up v u) (hx : Below up v x) : Below up u x ∨ Below up x u :=
  Relation.ReflTransGen.total_of_right_unique (fun _ _ _ hb hc => hb.symm.trans hc) hu hx

/-- Where two functions agree along a climb they climb alike. -/
theorem congr {up' : ℕ → ℕ} (h : Below up v u) (hv : v ∈ W) (hup : ∀ x ∈ W, up x ∈ W)
    (heq : ∀ x ∈ W, up' x = up x) : Below up' v u := by
  induction h using Relation.ReflTransGen.head_induction_on with
  | refl => exact refl up' u
  | @head x y hstep _ ih =>
      subst hstep
      have hnext := Below.next up' x
      rw [heq x hv] at hnext
      exact hnext.trans (ih (hup x hv))

end Below

/-- A spanning tree with the next node of every node on the way to the root. -/
structure IsRootedTree (V : Finset ℕ) (T : Finset (Sym2 ℕ)) (r : ℕ) (up : ℕ → ℕ) : Prop where
  tree : IsSpanningTree V T
  root_mem : r ∈ V
  up_root : up r = r
  edge : ∀ v ∈ V, v ≠ r → s(v, up v) ∈ T
  below : ∀ v ∈ V, Below up v r
  next_eq : ∀ x y, s(x, y) ∈ T → up x = y ∨ up y = x

namespace IsRootedTree

theorem up_mem (h : IsRootedTree V T r up) (hv : v ∈ V) : up v ∈ V := by
  by_cases hr : v = r
  · rw [hr, h.up_root]
    exact h.root_mem
  · exact (h.tree.inside _ _ (h.edge v hv hr)).2

theorem eq_root_of_below (h : IsRootedTree V T r up) (hv : Below up r v) : v = r :=
  hv.closed (A := fun x => x = r) (fun _ hx => hx ▸ h.up_root) rfl

/-- Different nodes have different edges above them. -/
theorem edge_inj (h : IsRootedTree V T r up) (hv : v ∈ V) (heq : s(v, up v) = s(u, up u)) :
    v = u := by
  obtain ⟨hvu, -⟩ | ⟨hvu, huv⟩ := Sym2.eq_iff.mp heq
  · exact hvu
  · -- the two nodes are the next ones of each other, so one of them is the root
    have hmem : r = v ∨ r = u := by
      apply (h.below v hv).closed (A := fun x => x = v ∨ x = u) _ (.inl rfl)
      rintro x (rfl | rfl)
      · exact .inr huv
      · exact .inl hvu.symm
    have hroot := h.up_root
    obtain rfl | rfl := hmem
    · exact hroot.symm.trans huv
    · exact hvu.trans hroot

/-- Every edge of the tree is the one above some node. -/
theorem exists_edge_eq (h : IsRootedTree V T r up) (hxy : s(x, y) ∈ T) :
    ∃ v ∈ V, v ≠ r ∧ s(v, up v) = s(x, y) := by
  have hne := h.tree.forest.ne hxy
  obtain ⟨hx, hy⟩ := h.tree.inside x y hxy
  obtain hup | hup := h.next_eq x y hxy
  · refine ⟨x, hx, ?_, by rw [hup]⟩
    rintro rfl
    exact hne (h.up_root.symm.trans hup)
  · refine ⟨y, hy, ?_, by rw [hup, Sym2.eq_swap]⟩
    rintro rfl
    exact hne (hup.symm.trans h.up_root)

/-- The nodes below an edge stay joined without it. -/
theorem joined_of_below (h : IsRootedTree V T r up) (hvr : v ≠ r) (ha : a ∈ V)
    (hav : Below up a v) : Joined (T.erase s(v, up v)) a v := by
  induction hav using Relation.ReflTransGen.head_induction_on with
  | refl => exact Joined.refl _ v
  | @head x y hstep hyv ih =>
      subst hstep
      by_cases hxv : x = v
      · rw [hxv]
        exact Joined.refl _ v
      · have hxr : x ≠ r := by
          rintro rfl
          exact hvr (h.eq_root_of_below ((Below.next up x).trans hyv))
        have hedge := Finset.mem_erase.mpr
          ⟨fun heq => hxv (h.edge_inj ha heq), h.edge x ha hxr⟩
        exact (Joined.edge hedge).trans (ih (h.up_mem ha))

/-- The nodes that are not below an edge stay joined to the root without it. -/
theorem joined_of_not_below (h : IsRootedTree V T r up) (ha : a ∈ V) (hav : ¬ Below up a v) :
    Joined (T.erase s(v, up v)) a r := by
  induction h.below a ha using Relation.ReflTransGen.head_induction_on with
  | refl => exact Joined.refl _ r
  | @head x y hstep _ ih =>
      subst hstep
      have hnext : ¬ Below up (up x) v := fun hx => hav ((Below.next up x).trans hx)
      by_cases hxr : x = r
      · rw [hxr]
        exact Joined.refl _ r
      · have hxv : x ≠ v := fun heq => hav (heq ▸ Below.refl up x)
        have hedge := Finset.mem_erase.mpr
          ⟨fun heq => hxv (h.edge_inj ha heq), h.edge x ha hxr⟩
        exact (Joined.edge hedge).trans (ih (h.up_mem ha) hnext)

/-- A tree edge separates the nodes below it from all others. -/
theorem joined_erase_iff (h : IsRootedTree V T r up) (hvr : v ≠ r) (ha : a ∈ V) (hb : b ∈ V) :
    Joined (T.erase s(v, up v)) a b ↔ (Below up a v ↔ Below up b v) := by
  constructor
  · intro hab
    apply hab.closed (A := fun x => Below up a v ↔ Below up x v) _ Iff.rfl
    intro x y hxy hax
    obtain ⟨hne, hxyT⟩ := Finset.mem_erase.mp hxy
    rw [hax]
    obtain rfl | rfl := h.next_eq x y hxyT
    · refine ⟨fun hx => ?_, (Below.next up x).trans⟩
      obtain rfl | hnext := hx.eq_or_next
      · exact absurd rfl hne
      · exact hnext
    · refine ⟨(Below.next up y).trans, fun hy => ?_⟩
      obtain rfl | hnext := hy.eq_or_next
      · exact absurd Sym2.eq_swap hne
      · exact hnext
  · intro hiff
    by_cases hav : Below up a v
    · exact (h.joined_of_below hvr ha hav).trans (h.joined_of_below hvr hb (hiff.mp hav)).symm
    · exact (h.joined_of_not_below ha hav).trans
        (h.joined_of_not_below hb fun hbv => hav (hiff.mpr hbv)).symm

/-- The path from the root to a node consists of the edges above it. -/
theorem joined_erase_root_iff (h : IsRootedTree V T r up) (hvr : v ≠ r) (ha : a ∈ V) :
    Joined (T.erase s(v, up v)) r a ↔ ¬ Below up a v := by
  have hr : ¬ Below up r v := fun hrv => hvr (h.eq_root_of_below hrv)
  rw [h.joined_erase_iff hvr h.root_mem ha]
  exact ⟨fun hiff hav => hr (hiff.mpr hav), fun hav => iff_of_false hr hav⟩

/-- No climb leads back to a node below the root. -/
theorem not_below_next (h : IsRootedTree V T r up) (hv : v ∈ V) (hvr : v ≠ r) :
    ¬ Below up (up v) v := by
  intro hback
  have hbelow : ∀ x, Below up x v → Below up (up x) v := by
    intro x hx
    obtain rfl | hnext := hx.eq_or_next
    · exact hback
    · exact hnext
  have hr := (h.below v hv).closed (A := fun x => Below up x v) hbelow (Below.refl up v)
  exact hvr (h.eq_root_of_below hr)

/-- A spanning tree is rooted at a node in one way. -/
theorem up_eq {up' : ℕ → ℕ} (h : IsRootedTree V T r up) (h' : IsRootedTree V T r up')
    (hv : v ∈ V) : up' v = up v := by
  by_cases hvr : v = r
  · rw [hvr, h.up_root, h'.up_root]
  obtain heq | hback := h'.next_eq _ _ (h.edge v hv hvr)
  · exact heq
  · -- the edge would be above its lower end in one tree and above its upper end in the other
    have hup := h.up_mem hv
    have hne : up v ≠ r := by
      intro heq
      rw [heq, h'.up_root] at hback
      exact hvr hback.symm
    have hjoined := (h.joined_erase_root_iff hvr hup).mpr (h.not_below_next hv hvr)
    have hedge : s(v, up v) = s(up v, up' (up v)) := by rw [hback, Sym2.eq_swap]
    rw [hedge, h'.joined_erase_root_iff hne hup] at hjoined
    exact absurd (Below.refl up' (up v)) hjoined

/-- What follows for every node from the next one holds for all nodes. -/
theorem induction {P : ℕ → Prop} (h : IsRootedTree V T r up) (hroot : P r)
    (hnext : ∀ v ∈ V, v ≠ r → P (up v) → P v) (hv : v ∈ V) : P v := by
  induction h.below v hv using Relation.ReflTransGen.head_induction_on with
  | refl => exact hroot
  | @head v _ hstep _ ih =>
      subst hstep
      by_cases hvr : v = r
      · exact hvr ▸ hroot
      · exact hnext v hv hvr (ih (h.up_mem hv))

end IsRootedTree

/-- The number of edges between a node and the root. -/
structure IsDepth (V : Finset ℕ) (r : ℕ) (up depth : ℕ → ℕ) : Prop where
  root_eq : depth r = 0
  next_eq : ∀ v ∈ V, v ≠ r → depth v = depth (up v) + 1

namespace IsDepth

variable {depth : ℕ → ℕ}

theorem eq_root (h : IsDepth V r up depth) (hv : v ∈ V) (hzero : depth v = 0) : v = r := by
  by_contra hvr
  have hnext := h.next_eq v hv hvr
  omega

/-- Of two different nodes the deeper one is not the root. -/
theorem ne_root (h : IsDepth V r up depth) (hu : u ∈ V) (huv : u ≠ v) (hle : depth u ≤ depth v) :
    v ≠ r := by
  rintro rfl
  rw [h.root_eq] at hle
  exact huv (h.eq_root hu (Nat.le_zero.mp hle))

theorem eq_or_lt (h : IsDepth V r up depth) (hT : IsRootedTree V T r up) (hv : v ∈ V)
    (hvu : Below up v u) : v = u ∨ depth u < depth v := by
  induction hvu using Relation.ReflTransGen.head_induction_on with
  | refl => exact .inl rfl
  | @head v _ hstep _ ih =>
      subst hstep
      by_cases hvr : v = r
      · have hup : up v = v := by
          rw [hvr]
          exact hT.up_root
        rw [hup] at ih
        exact ih hv
      · right
        have hnext := h.next_eq v hv hvr
        obtain heq | hless := ih (hT.up_mem hv)
        · rw [heq] at hnext
          omega
        · omega

/-- There is one depth of every node. -/
theorem depth_eq {depth' : ℕ → ℕ} (h : IsDepth V r up depth) (h' : IsDepth V r up depth')
    (hT : IsRootedTree V T r up) (hv : v ∈ V) : depth' v = depth v := by
  apply hT.induction (P := fun v => depth' v = depth v) _ _ hv
  · rw [h.root_eq, h'.root_eq]
  · intro v hv hvr hup
    rw [h.next_eq v hv hvr, h'.next_eq v hv hvr, hup]

end IsDepth

/-! ### Searching a tree -/

section Visits

variable {σ : Type} {stack : σ → List ℕ} {f : σ → Option σ} {start s : σ} {visited : List ℕ}

/-- A search takes nodes off its stack until none waits; the nodes in the order in which they are
taken. -/
inductive Visits (stack : σ → List ℕ) (f : σ → Option σ) : σ → List ℕ → σ → Prop where
  | done {s : σ} : stack s = [] → f s = none → Visits stack f s [] s
  | take {s next s' : σ} {v : ℕ} {waiting visited : List ℕ} :
      stack s = v :: waiting → f s = some next → Visits stack f next visited s' →
      Visits stack f s (v :: visited) s'

/-- A search without a bound ends, and takes every node of a set off its stack exactly once. -/
def VisitsOnce (V : Finset ℕ) (stack : σ → List ℕ) (f : σ → Option σ) (start s : σ) : Prop :=
  ∃ visited, Visits stack f start visited s ∧ visited.Nodup ∧ ∀ v, v ∈ visited ↔ v ∈ V

/-- A search with a bound does what the search without it does, if the bound is large enough. -/
theorem Visits.iterate_eq (h : Visits stack f start visited s) {bound : ℕ}
    (hbound : visited.length ≤ bound) : GraphInterval.iterate f bound start = s := by
  induction h generalizing bound with
  | done _ hnone => exact iterate_of_eq_none hnone bound
  | take _ hsome _ ih =>
      cases bound with
      | zero => exact absurd hbound (Nat.not_succ_le_zero _)
      | succ bound =>
          rw [GraphInterval.iterate, hsome]
          exact ih (Nat.le_of_succ_le_succ hbound)

end Visits

/-- A search found some nodes and has yet to list the neighbours of those that wait. -/
structure Exploring (V : Finset ℕ) (T : Finset (Sym2 ℕ)) (r : ℕ) (up : ℕ → ℕ) (W : Finset ℕ)
    (waiting : List ℕ) : Prop where
  root_mem : r ∈ W
  subset : W ⊆ V
  up_root : up r = r
  nodup : waiting.Nodup
  found : ∀ v ∈ waiting, v ∈ W
  edge : ∀ v ∈ W, v ≠ r → s(v, up v) ∈ T ∧ up v ∈ W ∧ up v ∉ waiting
  below : ∀ v ∈ W, Below up v r
  listed : ∀ v ∈ W, v ∉ waiting → ∀ x, s(v, x) ∈ T → x ∈ W ∧ (up v = x ∨ up x = v)

namespace Exploring

variable {waiting children : List ℕ} {up' : ℕ → ℕ}

theorem start (hr : r ∈ V) (hup : up r = r) : Exploring V T r up {r} [r] := by
  refine ⟨Finset.mem_singleton_self r, Finset.singleton_subset_iff.mpr hr, hup,
    List.nodup_singleton r, ?_, ?_, ?_, ?_⟩ <;> simp only [Finset.mem_singleton,
    List.mem_singleton]
  · exact fun v hv => hv
  · exact fun v hv hvr => absurd hv hvr
  · rintro v rfl
    exact Below.refl up v
  · exact fun v hv hvr => absurd hv hvr

theorem up_mem (h : Exploring V T r up W waiting) (hv : v ∈ W) : up v ∈ W := by
  by_cases hr : v = r
  · rw [hr, h.up_root]
    exact h.root_mem
  · exact (h.edge v hv hr).2.1

/-- A neighbour of the next node was not found before, unless the next node was found from it. -/
theorem not_mem (h : Exploring V T r up W (v :: waiting)) (hT : IsForest T) (hvx : s(v, x) ∈ T)
    (hx : x ≠ up v) : x ∉ W := by
  intro hxW
  -- all nodes that were found are joined to the root by other edges
  have hjoined : ∀ w ∈ W, Joined (T.erase s(v, x)) w r := by
    intro w hw
    induction h.below w hw using Relation.ReflTransGen.head_induction_on with
    | refl => exact Joined.refl _ r
    | @head w _ hstep _ ih =>
        subst hstep
        by_cases hwr : w = r
        · rw [hwr]
          exact Joined.refl _ r
        · obtain ⟨hedge, hup, hwaits⟩ := h.edge w hw hwr
          have hne : s(w, up w) ≠ s(v, x) := by
            intro heq
            obtain ⟨rfl, rfl⟩ | ⟨-, hv⟩ := Sym2.eq_iff.mp heq
            · exact hx rfl
            · exact hwaits (hv ▸ List.mem_cons_self)
          exact (Joined.edge (Finset.mem_erase.mpr ⟨hne, hedge⟩)).trans (ih hup)
  have hv := h.found v List.mem_cons_self
  exact hT v x hvx ((hjoined v hv).trans (hjoined x hxW).symm)

/-- The neighbours of the next node were not found before. -/
theorem children_new (h : Exploring V T r up W (v :: waiting)) (hT : IsForest T)
    (hchildren : ∀ x, x ∈ children ↔ s(v, x) ∈ T ∧ x ≠ up v) : ∀ x ∈ children, x ∉ W := by
  intro x hx
  obtain ⟨hedge, hne⟩ := (hchildren x).mp hx
  exact h.not_mem hT hedge hne

/-- Every node that was found hangs by an edge of the tree below one that does not wait. -/
theorem edge_next (h : Exploring V T r up W (v :: waiting)) (hnew : ∀ x ∈ children, x ∉ W)
    (hchildren : ∀ x, x ∈ children ↔ s(v, x) ∈ T ∧ x ≠ up v)
    (hold : ∀ x ∈ W, up' x = up x) (hchild : ∀ x ∈ children, up' x = v)
    (hx : x ∈ W ∨ x ∈ children) (hxr : x ≠ r) :
    s(x, up' x) ∈ T ∧ up' x ∈ W ∧ up' x ∉ children ∧ up' x ∉ waiting := by
  obtain hx | hx := hx
  · obtain ⟨hedge, hup, hwaits⟩ := h.edge x hx hxr
    rw [hold x hx]
    exact ⟨hedge, hup, fun hc => hnew _ hc hup, fun hw => hwaits (List.mem_cons_of_mem v hw)⟩
  · have hv := h.found v List.mem_cons_self
    rw [hchild x hx, Sym2.eq_swap]
    exact ⟨((hchildren x).mp hx).1, hv, fun hc => hnew v hc hv, (List.nodup_cons.mp h.nodup).1⟩

/-- The neighbours of the next node are listed now. -/
theorem listed_next (h : Exploring V T r up W (v :: waiting))
    (hchildren : ∀ x, x ∈ children ↔ s(v, x) ∈ T ∧ x ≠ up v)
    (hold : ∀ x ∈ W, up' x = up x) (hchild : ∀ x ∈ children, up' x = v)
    (hx : x ∈ W) (hwaits : x ∉ waiting) (hxy : s(x, y) ∈ T) :
    (y ∈ W ∨ y ∈ children) ∧ (up' x = y ∨ up' y = x) := by
  rw [hold x hx]
  by_cases hxv : x = v
  · subst hxv
    by_cases hy : y ∈ children
    · exact ⟨.inr hy, .inr (hchild y hy)⟩
    · have hyup : y = up x := by
        by_contra hne
        exact hy ((hchildren y).mpr ⟨hxy, hne⟩)
      exact ⟨.inl (hyup ▸ h.up_mem hx), .inl hyup.symm⟩
  · have hnot : x ∉ v :: waiting := by
      rw [List.mem_cons]
      exact not_or.mpr ⟨hxv, hwaits⟩
    obtain ⟨hy, hor⟩ := h.listed x hx hnot y hxy
    rw [hold y hy]
    exact ⟨.inl hy, hor⟩

/-- Hanging the neighbours of the next node below it. -/
theorem next (h : Exploring V T r up W (v :: waiting)) (hT : IsSpanningTree V T)
    (hnodup : children.Nodup) (hchildren : ∀ x, x ∈ children ↔ s(v, x) ∈ T ∧ x ≠ up v)
    (hup : ∀ x, up' x = if x ∈ children then v else up x) :
    (∀ x ∈ children, x ∉ W) ∧
      Exploring V T r up' (W ∪ children.toFinset) (children.reverse ++ waiting) := by
  have hnew := h.children_new hT.forest hchildren
  have hold : ∀ x ∈ W, up' x = up x := by
    intro x hx
    rw [hup, if_neg fun hc => hnew x hc hx]
  have hchild : ∀ x ∈ children, up' x = v := by
    intro x hx
    rw [hup, if_pos hx]
  have hbelow : ∀ x ∈ W, Below up' x r := fun x hx =>
    (h.below x hx).congr hx (fun y hy => h.up_mem hy) hold
  have hsubset : W ∪ children.toFinset ⊆ V := by
    apply Finset.union_subset h.subset
    intro x hx
    exact (hT.inside v x ((hchildren x).mp (List.mem_toFinset.mp hx)).1).2
  have hwaiting : (children.reverse ++ waiting).Nodup := by
    apply List.nodup_append.mpr
    refine ⟨List.nodup_reverse.mpr hnodup, (List.nodup_cons.mp h.nodup).2, ?_⟩
    rintro x hx _ hx' rfl
    exact hnew x (List.mem_reverse.mp hx) (h.found x (List.mem_cons_of_mem v hx'))
  refine ⟨hnew, ⟨Finset.mem_union_left _ h.root_mem, hsubset,
    (hold r h.root_mem).trans h.up_root, hwaiting, ?_, ?_, ?_, ?_⟩⟩ <;>
    simp only [Finset.mem_union, List.mem_toFinset, List.mem_append, List.mem_reverse]
  · rintro x (hx | hx)
    · exact .inr hx
    · exact .inl (h.found x (List.mem_cons_of_mem v hx))
  · intro x hx hxr
    obtain ⟨hedge, hmem, hc, hw⟩ := h.edge_next hnew hchildren hold hchild hx hxr
    exact ⟨hedge, .inl hmem, not_or.mpr ⟨hc, hw⟩⟩
  · rintro x (hx | hx)
    · exact hbelow x hx
    · have hnext := Below.next up' x
      rw [hchild x hx] at hnext
      exact hnext.trans (hbelow v (h.found v List.mem_cons_self))
  · intro x hx hwaits y hxy
    obtain ⟨hc, hw⟩ := not_or.mp hwaits
    exact h.listed_next hchildren hold hchild (hx.resolve_right hc) hw hxy

/-- A search in which no node waits has found the whole tree. -/
theorem finished (h : Exploring V T r up W []) (hT : IsSpanningTree V T) :
    W = V ∧ IsRootedTree V T r up := by
  have hW : W = V := by
    apply Finset.Subset.antisymm h.subset
    intro v hv
    apply (hT.joined r (h.subset h.root_mem) v hv).closed (A := fun x => x ∈ W) _ h.root_mem
    exact fun x y hxy hx => (h.listed x hx List.not_mem_nil y hxy).1
  subst hW
  refine ⟨rfl, hT, h.root_mem, h.up_root, fun v hv hvr => (h.edge v hv hvr).1, h.below,
    fun x y hxy => ?_⟩
  exact (h.listed x (hT.inside x y hxy).1 List.not_mem_nil y hxy).2

variable {σ : Type} {up : σ → ℕ → ℕ} {J : σ → Finset ℕ → Prop}
variable {stack : σ → List ℕ} {f : σ → Option σ}

/-- A step hangs the neighbours of the first waiting node below it, except for the node from where
it was found, and keeps what holds for the nodes that were found. -/
def Lists (V : Finset ℕ) (T : Finset (Sym2 ℕ)) (r : ℕ) (up : σ → ℕ → ℕ)
    (J : σ → Finset ℕ → Prop) (stack : σ → List ℕ) (f : σ → Option σ) : Prop :=
  ∀ s v waiting W, stack s = v :: waiting → Exploring V T r (up s) W (v :: waiting) → J s W →
    ∃ s', ∃ children : List ℕ, f s = some s' ∧ stack s' = children.reverse ++ waiting ∧
      children.Nodup ∧ (∀ x, x ∈ children ↔ s(v, x) ∈ T ∧ x ≠ up s v) ∧
      (∀ x, up s' x = if x ∈ children then v else up s x) ∧
      ((∀ x ∈ children, x ∉ W) → J s' (W ∪ children.toFinset))

/-- A search whose steps list the neighbours of the first waiting node roots the tree, and visits
every node once that waits or is not found yet. -/
theorem visits (hT : IsSpanningTree V T) (hnil : ∀ s, stack s = [] → f s = none)
    (hstep : Lists V T r up J stack f) {s : σ} {waiting : List ℕ} (hstack : stack s = waiting)
    (h : Exploring V T r (up s) W waiting) (hJ : J s W) :
    ∃ s' visited, Visits stack f s visited s' ∧ visited.Nodup ∧
      (∀ x, x ∈ visited ↔ x ∈ V ∧ (x ∈ W → x ∈ waiting)) ∧
      visited.length + W.card = V.card + waiting.length ∧ IsRootedTree V T r (up s') ∧
      J s' V := by
  induction hsize : V.card - W.card + waiting.length using Nat.strong_induction_on
    generalizing s W waiting with
  | h size ih =>
  cases waiting with
  | nil =>
      obtain ⟨rfl, hrooted⟩ := h.finished hT
      refine ⟨s, [], .done hstack (hnil s hstack), List.nodup_nil, fun x => ?_, ?_, hrooted, hJ⟩
      · simp
      · exact Nat.add_comm _ _
  | cons v waiting =>
      obtain ⟨s', children, heq, hstack', hnodup, hchildren, hup, hkeeps⟩ :=
        hstep s v waiting W hstack h hJ
      obtain ⟨hnew, hnext⟩ := h.next hT hnodup hchildren hup
      have hdisjoint : Disjoint W children.toFinset := by
        rw [Finset.disjoint_right]
        exact fun x hx => hnew x (List.mem_toFinset.mp hx)
      have hcard := Finset.card_union_of_disjoint hdisjoint
      have hle := Finset.card_le_card hnext.subset
      rw [List.toFinset_card_of_nodup hnodup] at hcard
      obtain ⟨s'', visited, hvisits, hvisited, hmem, hlength, hrooted, hJ''⟩ := ih _ (by
        simp only [List.length_append, List.length_reverse, List.length_cons] at hsize ⊢
        omega) hstack' hnext (hkeeps hnew) rfl
      have hv := h.found v List.mem_cons_self
      have hvwaits : v ∉ waiting := (List.nodup_cons.mp h.nodup).1
      refine ⟨s'', v :: visited, .take hstack heq hvisits, ?_, fun x => ?_, ?_, hrooted, hJ''⟩
      · refine List.nodup_cons.mpr ⟨fun hagain => ?_, hvisited⟩
        have hwaits := ((hmem v).mp hagain).2 (Finset.mem_union_left _ hv)
        obtain hc | hw := List.mem_append.mp hwaits
        · exact hnew v (List.mem_reverse.mp hc) hv
        · exact hvwaits hw
      · rw [List.mem_cons, hmem, List.mem_cons, List.mem_append, List.mem_reverse,
          Finset.mem_union, List.mem_toFinset]
        by_cases hxv : x = v
        · subst hxv
          exact iff_of_true (.inl rfl) ⟨h.subset hv, fun _ => .inl rfl⟩
        · rw [or_iff_right hxv, or_iff_right hxv]
          apply and_congr_right
          intro _
          have hold : x ∈ children → x ∉ W := hnew x
          tauto
      · simp only [List.length_append, List.length_reverse, List.length_cons] at hlength ⊢
        omega

/-- A search from a node visits every node once, within as many steps as there are nodes, and roots
the tree there. -/
theorem search (hT : IsSpanningTree V T) (hnil : ∀ s, stack s = [] → f s = none)
    (hstep : Lists V T r up J stack f) {s : σ} (hstack : stack s = [r]) (hr : r ∈ V)
    (hup : up s r = r) (hJ : J s {r}) {bound : ℕ} (hbound : V.card ≤ bound) :
    ∃ s', GraphInterval.iterate f bound s = s' ∧
      VisitsOnce V stack f s s' ∧ IsRootedTree V T r (up s') ∧ J s' V := by
  obtain ⟨s', visited, hvisits, hnodup, hmem, hlength, hrooted, hJ'⟩ :=
    (Exploring.start hr hup).visits hT hnil hstep hstack hJ
  rw [Finset.card_singleton, List.length_singleton] at hlength
  refine ⟨s', ?_, ⟨visited, hvisits, hnodup, fun x => ?_⟩, hrooted, hJ'⟩
  · rw [hvisits.iterate_eq (by omega)]
  · rw [hmem, Finset.mem_singleton, List.mem_singleton]
    exact and_iff_left id

end Exploring

end GraphInterval
