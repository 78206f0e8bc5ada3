import GraphInterval.Proofs.Scalar.Lawful
import GraphInterval.Proofs.Tree.Path
import GraphInterval.Proofs.Tree.Rooted

/-!
# Values that grow along paths

A search of a tree carries a value along all paths from its source, and with
every edge takes the larger one of this value and the weight of the edge.  A
node is then left with the largest weight on its path.  A weight that cannot be
compared with itself is passed over.
-/

namespace GraphInterval

/-- The largest weight on the path between two nodes of a forest; the bottom if no weight of the
path is larger. -/
structure IsPathMaximum (T : Finset (Sym2 ℕ)) (w : Sym2 ℕ → Exact) (a b : ℕ) (m : Exact) : Prop where
  le : ∀ f ∈ T, ¬ Joined (T.erase f) a b → w f ≤ m
  attained : m = .bottom ∨ ∃ f ∈ T, ¬ Joined (T.erase f) a b ∧ w f = m

/-- The value of an edge that no comparable edge exceeds; the bottom where there is none. -/
structure IsLargest {α : Type} [Scalar α] (E : ℕ → ℕ → Prop) (w : ℕ → ℕ → α) (m : α) : Prop where
  self : m ≤ m
  le : ∀ x y, E x y → w x y ≤ w x y → w x y ≤ m
  attained : m = Scalar.bottom ∨ ∃ x y, E x y ∧ m = w x y

section Largest

variable {α : Type} [Scalar α] [LawfulScalar α] {E E' : ℕ → ℕ → Prop} {w : ℕ → ℕ → α} {m c : α}

theorem IsLargest.empty (hE : ∀ x y, ¬ E x y) : IsLargest E w Scalar.bottom :=
  ⟨LawfulScalar.bottom_le_bottom, fun x y h => absurd h (hE x y), .inl rfl⟩

/-- Edges of one more value are added. -/
theorem IsLargest.larger (h : IsLargest E w m) (hold : ∀ x y, E x y → E' x y)
    (hnew : ∀ x y, E' x y → E x y ∨ w x y = c)
    (hc : c = Scalar.bottom ∨ ∃ x y, E' x y ∧ c = w x y) :
    IsLargest E' w (Scalar.larger m c) := by
  obtain ⟨heq, hcm⟩ | ⟨heq, hcc, hmc⟩ := Scalar.larger_cases h.self c
  · rw [heq]
    refine ⟨h.self, fun x y hxy hself => ?_, ?_⟩
    · obtain hxy | hw := hnew x y hxy
      · exact h.le x y hxy hself
      · rw [hw] at hself ⊢
        exact hcm hself
    · obtain hm | ⟨x, y, hxy, hm⟩ := h.attained
      · exact .inl hm
      · exact .inr ⟨x, y, hold x y hxy, hm⟩
  · rw [heq]
    refine ⟨hcc, fun x y hxy hself => ?_, hc⟩
    obtain hxy | hw := hnew x y hxy
    · exact Ranked.le_trans (h.le x y hxy hself) hmc
    · exact hw.symm ▸ hcc

end Largest

namespace IsRootedTree

variable {V : Finset ℕ} {T : Finset (Sym2 ℕ)} {up : ℕ → ℕ} {r v : ℕ} {f : Sym2 ℕ}

/-- The path to a node is the path to the next node and one more edge. -/
theorem not_joined_iff_next (h : IsRootedTree V T r up) (hf : f ∈ T) (hv : v ∈ V) :
    ¬ Joined (T.erase f) r v ↔ f = s(v, up v) ∨ ¬ Joined (T.erase f) r (up v) := by
  induction f with
  | h x y =>
  obtain ⟨z, hz, hzr, heq⟩ := h.exists_edge_eq hf
  rw [← heq, h.joined_erase_root_iff hzr hv, h.joined_erase_root_iff hzr (h.up_mem hv), not_not,
    not_not]
  constructor
  · intro hvz
    obtain rfl | hnext := hvz.eq_or_next
    · exact .inl rfl
    · exact .inr hnext
  · rintro (hedge | hnext)
    · rw [h.edge_inj hz hedge]
      exact Below.refl up v
    · exact (Below.next up v).trans hnext

/-- The path to a node leads through the next node. -/
theorem onPath_next (h : IsRootedTree V T r up) (hv : v ∈ V) (hvr : v ≠ r) :
    OnPath T f r v ↔ f = s(v, up v) ∨ OnPath T f r (up v) := by
  rw [h.tree.onPath_iff h.root_mem hv, h.tree.onPath_iff h.root_mem (h.up_mem hv)]
  constructor
  · rintro ⟨hf, hapart⟩
    exact ((h.not_joined_iff_next hf hv).mp hapart).imp_right fun hup => ⟨hf, hup⟩
  · rintro (rfl | ⟨hf, hup⟩)
    · have hedge := h.edge v hv hvr
      exact ⟨hedge, (h.not_joined_iff_next hedge hv).mpr (.inl rfl)⟩
    · exact ⟨hf, (h.not_joined_iff_next hf hv).mpr (.inr hup)⟩

theorem not_onPath_root (h : IsRootedTree V T r up) : ¬ OnPath T f r r := by
  rw [h.tree.onPath_iff h.root_mem h.root_mem]
  exact fun hf => hf.2 (Joined.refl _ r)

end IsRootedTree

/-- The value of every node is that of the next node on the way to a source, or the weight of the
edge between them if that is larger. -/
def GrowsFrom {α : Type} [Scalar α] (V : Finset ℕ) (T : Finset (Sym2 ℕ)) (s : ℕ) (w : ℕ → ℕ → α)
    (m : ℕ → α) : Prop :=
  ∃ up, IsRootedTree V T s up ∧ m s = Scalar.bottom ∧
    ∀ v ∈ V, v ≠ s → m v = Scalar.larger (m (up v)) (w (up v) v)

/-- The weights determine the values. -/
theorem GrowsFrom.eq {α : Type} [Scalar α] {V : Finset ℕ} {T : Finset (Sym2 ℕ)} {s v : ℕ}
    {w : ℕ → ℕ → α} {m m' : ℕ → α} (h : GrowsFrom V T s w m) (h' : GrowsFrom V T s w m')
    (hv : v ∈ V) : m v = m' v := by
  obtain ⟨up, hrooted, hsource, hnext⟩ := h
  obtain ⟨up', hrooted', hsource', hnext'⟩ := h'
  apply hrooted.induction (P := fun v => m v = m' v) _ _ hv
  · rw [hsource, hsource']
  · intro x hx hxs hup
    rw [hnext x hx hxs, hnext' x hx hxs, hrooted.up_eq hrooted' hx, hup]

/-- If the weights do not depend on the directions of the edges, the value of every node is the
largest weight on its path. -/
theorem GrowsFrom.isLargest {α : Type} [Scalar α] [LawfulScalar α] {V : Finset ℕ}
    {T : Finset (Sym2 ℕ)} {s v : ℕ} {w : ℕ → ℕ → α} {m : ℕ → α} (h : GrowsFrom V T s w m)
    (hsymm : ∀ a ∈ V, ∀ b ∈ V, w a b = w b a) (hv : v ∈ V) :
    IsLargest (fun x y => OnPath T s(x, y) s v) w (m v) := by
  obtain ⟨up, hrooted, hsource, hnext⟩ := h
  apply hrooted.induction (P := fun v => IsLargest (fun x y => OnPath T s(x, y) s v) w (m v)) _ _ hv
  · rw [hsource]
    exact IsLargest.empty fun x y hxy => hrooted.not_onPath_root hxy
  · intro v hv hvs ih
    have hpath := fun {f} => hrooted.onPath_next (f := f) hv hvs
    rw [hnext v hv hvs]
    apply ih.larger
    · exact fun x y hxy => hpath.mpr (.inr hxy)
    · intro x y hxy
      obtain hedge | hbefore := hpath.mp hxy
      · -- the last edge, in one of its two directions
        right
        obtain ⟨rfl, rfl⟩ | ⟨rfl, rfl⟩ := Sym2.eq_iff.mp hedge
        · exact hsymm _ hv _ (hrooted.up_mem hv)
        · rfl
      · exact .inl hbefore
    · exact .inr ⟨up v, v, hpath.mpr (.inl Sym2.eq_swap), rfl⟩

/-- On exact numbers, the value of every node is the maximum on its path. -/
theorem GrowsFrom.isPathMaximum {V : Finset ℕ} {T : Finset (Sym2 ℕ)} {s v : ℕ}
    {w : Sym2 ℕ → Exact} {w' : ℕ → ℕ → Exact} {m : ℕ → Exact} (h : GrowsFrom V T s w' m)
    (hw : ∀ a ∈ V, ∀ b ∈ V, w' a b = w s(a, b)) (hv : v ∈ V) : IsPathMaximum T w s v (m v) := by
  have hlargest := h.isLargest
    (fun a ha b hb => by rw [hw a ha b hb, hw b hb a ha, Sym2.eq_swap]) hv
  obtain ⟨up, hrooted, -⟩ := h
  have honpath := fun {f} => hrooted.tree.onPath_iff (f := f) hrooted.root_mem hv
  constructor
  · intro f hf hapart
    induction f with
    | h x y =>
    obtain ⟨hx, hy⟩ := hrooted.tree.inside x y hf
    rw [← hw x hx y hy]
    exact hlargest.le x y (honpath.mpr ⟨hf, hapart⟩) (Exact.le_refl _)
  · apply hlargest.attained.imp_right
    rintro ⟨x, y, hxy, hm⟩
    obtain ⟨hf, hapart⟩ := honpath.mp hxy
    obtain ⟨hx, hy⟩ := hrooted.tree.inside x y hf
    exact ⟨s(x, y), hf, hapart, by rw [hm, hw x hx y hy]⟩

end GraphInterval
