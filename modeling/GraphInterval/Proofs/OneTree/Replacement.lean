import GraphInterval.Proofs.OneTree.Paths
import GraphInterval.Proofs.Run
import GraphInterval.Proofs.Tree.Contraction

/-!
# Replacements of tree edges

The edges outside of the tree are considered one by one, and each of them
contracts what is left of the path between its endpoints.  The tree edges that
it contracts are exactly those that no earlier edge covers.  If the edges come
by increasing cost, its cost is therefore that of their cheapest replacement.

The loops of the library are bounded by the order of the graph.  They end before
their bounds do, so the result is that of the same loops without bounds.
-/

namespace GraphInterval

namespace Kruskal

open OneTree

variable {α : Type} {n : ℕ} {k k₀ k₁ : Kruskal α} {e : Edge} {c : α} {t v x y : ℕ}

/-- The edge above a node is on the path between the endpoints of another edge. -/
def Covers (up : ℕ → ℕ) (e : Edge) (v : ℕ) : Prop := ¬ (Below up e.1 v ↔ Below up e.2 v)

/-! ### Climbing -/

/-- Only shortcuts changed, and they lead to the same ends. -/
structure SameEnds (n : ℕ) (k₀ k : Kruskal α) : Prop where
  frame : { k with jumps := k₀.jumps } = k₀
  jumps : k.jumps.size = n
  shortcuts : Shortcuts (innerNodes n) root k₀.parent k.jump
  leads_iff : ∀ v t, Leads k.jump v t ↔ Leads k₀.jump v t

theorem SameEnds.jump_eq_iff (h : SameEnds n k₀ k) (v : ℕ) : k.jump v = v ↔ k₀.jump v = v := by
  rw [← Leads.self_iff, ← Leads.self_iff, h.leads_iff]

theorem SameEnds.trans (h : SameEnds n k₀ k₁) (h' : SameEnds n k₁ k) : SameEnds n k₀ k := by
  have hparent : k₁.parent = k₀.parent := (congrArg Kruskal.parent h.frame :)
  refine ⟨?_, h'.jumps, hparent ▸ h'.shortcuts, fun v t => (h'.leads_iff v t).trans
    (h.leads_iff v t)⟩
  exact (congrArg (fun k : Kruskal α => { k with jumps := k₀.jumps }) h'.frame).trans h.frame

theorem jump_setJump (k : Kruskal α) (hx : x < k.jumps.size) (y : ℕ) :
    jump { k with jumps := k.jumps.setIfInBounds x y } = Function.update k.jump x y := by
  funext v
  rw [Function.update_apply]
  simp only [jump, Array.getD_eq_getD_getElem?, Array.getElem?_setIfInBounds]
  by_cases hvx : v = x
  · subst hvx
    simp [hx]
  · simp [hvx, Ne.symm hvx]

/-- A climb ends where the shortcuts lead. -/
theorem iterate_climbStep (hr : k₀.IsRooted n) (bound : ℕ) (h : SameEnds n k₀ k)
    (hv : v ∈ innerNodes n) (hbound : k₀.depth v < bound) :
    ∃ k' t, iterate climbStep bound (k, v) = (k', t) ∧ SameEnds n k₀ k' ∧ Leads k₀.jump v t := by
  induction bound generalizing k v with
  | zero => exact absurd hbound (Nat.not_lt_zero _)
  | succ bound ih =>
      by_cases hend : k.jump v = v
      · refine ⟨k, v, ?_, h, (h.leads_iff v v).mp (Leads.stop hend)⟩
        rw [iterate, climbStep]
        simp only [hend, if_true]
      · have hvn := (mem_innerNodes.mp hv).2
        have hdescends := h.shortcuts.descends hr.tree hr.depth
        have hjump := jump_setJump k (x := v) (h.jumps.symm ▸ hvn) (k.jump (k.jump v))
        have hnext : k.jump (k.jump v) ∈ innerNodes n := by
          have hbelow := (h.shortcuts.climbs v).trans (h.shortcuts.climbs (k.jump v))
          exact hbelow.below.closed (fun _ hx => hr.tree.up_mem hx) hv
        have hless : k₀.depth (k.jump (k.jump v)) < k₀.depth v := by
          have hone := hdescends v hend
          by_cases hend' : k.jump (k.jump v) = k.jump v
          · rw [hend']
            exact hone
          · exact (hdescends (k.jump v) hend').trans hone
        have hsame : SameEnds n k₀
            { k with jumps := k.jumps.setIfInBounds v (k.jump (k.jump v)) } := by
          refine ⟨h.frame, (Array.size_setIfInBounds ..).trans h.jumps, ?_, fun u t => ?_⟩
          · rw [hjump]
            exact h.shortcuts.halve hr.tree hr.depth hend
          · rw [hjump, Leads.halve_iff hdescends hend, h.leads_iff]
        obtain ⟨k', t, heq, hsame', hleads⟩ := ih hsame hnext (by omega)
        refine ⟨k', t, ?_, hsame', ?_⟩
        · rw [iterate, climbStep]
          simp only [hend, if_false]
          exact heq
        · rw [← h.leads_iff] at hleads ⊢
          exact hleads.cons.cons

/-- A climb ends where the loop without a bound does. -/
theorem climb_spec (horder : k.tree.order = n) (hr : k.IsRooted n) (hjumps : k.jumps.size = n)
    (hs : Shortcuts (innerNodes n) root k.parent k.jump) (hv : v ∈ innerNodes n) :
    ∃ k' t, k.climb v = (k', t) ∧ (k', t) ∈ StateTransition.eval climbStep (k, v) ∧
      SameEnds n k k' ∧ Leads k.jump v t := by
  obtain ⟨k', t, heq, hsame, hleads⟩ := iterate_climbStep hr n
    ⟨rfl, hjumps, hs, fun _ _ => Iff.rfl⟩ hv (hr.depth_lt v hv)
  have hend : k'.jump t = t := (hsame.jump_eq_iff t).mpr hleads.isEnd
  have hfinished : climbStep (iterate climbStep n (k, v)) = none := by
    rw [heq, climbStep]
    simp only [hend, if_true]
  have hresult : k.climb v = (k', t) := by rw [climb, horder, heq]
  exact ⟨k', t, hresult, heq ▸ iterate_mem_eval hfinished, hsame, hleads⟩

/-! ### Contracting a path -/

section Replacing

variable [Scalar α]

/-- Part of the path between the endpoints of an edge is contracted, and two nodes are the ends of
what is left. -/
structure Contracting (n : ℕ) (k₀ : Kruskal α) (e : Edge) (c : α) (k : Kruskal α) (x y : ℕ) :
    Prop where
  frame : { k with jumps := k₀.jumps, replacements := k₀.replacements } = k₀
  jumps : k.jumps.size = n
  replacements : k.replacements.size = n
  shortcuts : Shortcuts (innerNodes n) root k₀.parent k.jump
  ends : (Leads k.jump e.1 x ∧ Leads k.jump e.2 y) ∨ (Leads k.jump e.1 y ∧ Leads k.jump e.2 x)
  covered : ∀ v, k.jump v ≠ v → k₀.jump v ≠ v ∨ Covers k₀.parent e v
  kept : ∀ v, k₀.jump v ≠ v → k.jump v ≠ v
  replaced : ∀ v, k.replacements.getD v Ranked.top =
    if k₀.jump v = v ∧ k.jump v ≠ v then c else k₀.replacements.getD v Ranked.top

theorem Contracting.symm (h : Contracting n k₀ e c k x y) : Contracting n k₀ e c k y x :=
  ⟨h.frame, h.jumps, h.replacements, h.shortcuts, h.ends.symm, h.covered, h.kept, h.replaced⟩

/-- Nothing is contracted yet after both endpoints climbed to where their shortcuts lead. -/
theorem SameEnds.contracting (h : SameEnds n k₀ k) (hk : k₀.Sized n)
    (hx : Leads k₀.jump e.1 x) (hy : Leads k₀.jump e.2 y) : Contracting n k₀ e c k x y := by
  have hreplacements : k.replacements = k₀.replacements := (congrArg Kruskal.replacements h.frame :)
  refine ⟨?_, h.jumps, hreplacements ▸ hk.replacements, h.shortcuts, .inl ⟨?_, ?_⟩,
    fun v hv => ?_, fun v hv => ?_, fun v => ?_⟩
  · exact (congrArg (fun k : Kruskal α => { k with replacements := k₀.replacements }) h.frame :)
  · exact (h.leads_iff _ _).mpr hx
  · exact (h.leads_iff _ _).mpr hy
  · exact .inl fun hend => hv ((h.jump_eq_iff v).mpr hend)
  · exact fun hend => hv ((h.jump_eq_iff v).mp hend)
  · rw [hreplacements, if_neg fun h' => h'.2 ((h.jump_eq_iff v).mpr h'.1)]

/-- Once the nodes have met, the whole path is contracted. -/
theorem Contracting.contracted_iff (h : Contracting n k₀ e c k x x) (v : ℕ) :
    k.jump v ≠ v ↔ k₀.jump v ≠ v ∨ Covers k₀.parent e v := by
  refine ⟨h.covered v, fun h' => h'.elim (h.kept v) fun hcovers => ?_⟩
  have hends : Leads k.jump e.1 x ∧ Leads k.jump e.2 x := h.ends.elim id id
  by_cases hav : Below k₀.parent e.1 v
  · apply h.shortcuts.contracted_of_common_end hends.1 hends.2 hav
    exact fun hbv => hcovers (iff_of_true hav hbv)
  · apply h.shortcuts.contracted_of_common_end hends.2 hends.1 _ hav
    by_contra hbv
    exact hcovers (iff_of_false hav hbv)

/-- The nodes below edges that are left. -/
def uncontracted (n : ℕ) (k : Kruskal α) : Finset ℕ := (innerNodes n).filter fun v => k.jump v = v

/-- The edge above a node is contracted at the cost of its replacement. -/
def cutAbove (k : Kruskal α) (c : α) (x : ℕ) : Kruskal α :=
  { k with
    replacements := k.replacements.setIfInBounds x c
    jumps := k.jumps.setIfInBounds x (k.parent x) }

namespace Contracting

theorem mem_inner (h : Contracting n k₀ e c k x y) (hr : k₀.IsRooted n)
    (ha : e.1 ∈ innerNodes n) (hb : e.2 ∈ innerNodes n) : x ∈ innerNodes n ∧ y ∈ innerNodes n := by
  have hmem : ∀ {v t}, v ∈ innerNodes n → Leads k.jump v t → t ∈ innerNodes n := fun hv hvt =>
    h.shortcuts.mem_of_leads hr.tree hvt hv
  obtain ⟨hx, hy⟩ | ⟨hy, hx⟩ := h.ends
  · exact ⟨hmem ha hx, hmem hb hy⟩
  · exact ⟨hmem hb hx, hmem ha hy⟩

theorem jump_end (h : Contracting n k₀ e c k x y) : k.jump x = x :=
  h.ends.elim (fun h => h.1.isEnd) fun h => h.2.isEnd

/-- The deeper end is above just one of the endpoints. -/
theorem covers_end (h : Contracting n k₀ e c k x y) (hr : k₀.IsRooted n)
    (ha : e.1 ∈ innerNodes n) (hb : e.2 ∈ innerNodes n) (hxy : x ≠ y)
    (hle : k₀.depth y ≤ k₀.depth x) : Covers k₀.parent e x := by
  intro hiff
  obtain ⟨hax, hby⟩ | ⟨hay, hbx⟩ := h.ends
  · apply h.shortcuts.not_below_of_deeper hr.tree hr.depth hb hby h.jump_end hxy hle
    exact hiff.mp (h.shortcuts.climbs_of_leads hax).below
  · apply h.shortcuts.not_below_of_deeper hr.tree hr.depth ha hay h.jump_end hxy hle
    exact hiff.mpr (h.shortcuts.climbs_of_leads hbx).below

/-- After the edge above the deeper end is contracted, the shortcuts lead on from there. -/
theorem cutAbove_spec (h : Contracting n k₀ e c k x y) (hr : k₀.IsRooted n)
    (ha : e.1 ∈ innerNodes n) (hb : e.2 ∈ innerNodes n) (hxy : x ≠ y)
    (hle : k₀.depth y ≤ k₀.depth x) :
    (cutAbove k c x).IsRooted n ∧ (cutAbove k c x).parent = k₀.parent ∧
      (cutAbove k c x).jump = Function.update k.jump x (k₀.parent x) ∧
      Shortcuts (innerNodes n) root k₀.parent (cutAbove k c x).jump ∧
      ∀ v, (cutAbove k c x).jump v ≠ v ↔ k.jump v ≠ v ∨ v = x := by
  have hparent : k.parent = k₀.parent := (congrArg Kruskal.parent h.frame :)
  have hdepth : k.depth = k₀.depth := (congrArg Kruskal.depth h.frame :)
  have htree : k.tree = k₀.tree := (congrArg Kruskal.tree h.frame :)
  obtain ⟨hx, hy⟩ := h.mem_inner hr ha hb
  have hxr : x ≠ root := hr.depth.ne_root hy (Ne.symm hxy) hle
  have hjump : (cutAbove k c x).jump = Function.update k.jump x (k₀.parent x) := by
    rw [← hparent]
    exact jump_setJump k (h.jumps.symm ▸ (mem_innerNodes.mp hx).2) (k.parent x)
  obtain ⟨hshortcuts, hcontracted⟩ := h.shortcuts.contract hr.tree hx hxr
  rw [← hjump] at hshortcuts hcontracted
  refine ⟨⟨?_, ?_, ?_⟩, hparent, hjump, hshortcuts, hcontracted⟩
  · change IsRootedTree _ (innerEdges k.tree.edgeSet) _ k.parent
    rw [htree, hparent]
    exact hr.tree
  · change IsDepth _ _ k.parent k.depth
    rw [hparent, hdepth]
    exact hr.depth
  · change ∀ v ∈ _, k.depth v < n
    rw [hdepth]
    exact hr.depth_lt

end Contracting

theorem getD_cutAbove (k : Kruskal α) (c : α) (hx : x < k.replacements.size) (v : ℕ) :
    (cutAbove k c x).replacements.getD v Ranked.top =
      if v = x then c else k.replacements.getD v Ranked.top := by
  simp only [cutAbove, Array.getD_eq_getD_getElem?, Array.getElem?_setIfInBounds]
  by_cases hvx : v = x
  · simp [hvx, hx]
  · simp [hvx, Ne.symm hvx]

omit [Scalar α] in
theorem card_uncontracted_lt (hx : x ∈ innerNodes n) (hxend : k.jump x = x)
    (hjump : ∀ v, k₁.jump v ≠ v ↔ k.jump v ≠ v ∨ v = x) :
    (uncontracted n k₁).card < (uncontracted n k).card := by
  apply Finset.card_lt_card
  rw [Finset.ssubset_iff_of_subset]
  · refine ⟨x, Finset.mem_filter.mpr ⟨hx, hxend⟩, fun hmem => ?_⟩
    exact (hjump x).mpr (.inr rfl) (Finset.mem_filter.mp hmem).2
  · intro v hv
    obtain ⟨hvV, hvend⟩ := Finset.mem_filter.mp hv
    refine Finset.mem_filter.mpr ⟨hvV, ?_⟩
    by_contra hne
    exact (hjump v).mpr (.inl hne) hvend

/-- The deeper end moves on, and the edge above it is contracted. -/
theorem Contracting.contract (hr : k₀.IsRooted n) (horder : k₀.tree.order = n)
    (ha : e.1 ∈ innerNodes n) (hb : e.2 ∈ innerNodes n) (h : Contracting n k₀ e c k x y)
    (hxy : x ≠ y) (hle : k.depth y ≤ k.depth x) :
    ∃ k' t, climb (cutAbove k c x) x = (k', t) ∧
      (k', t) ∈ StateTransition.eval climbStep (cutAbove k c x, x) ∧
      Contracting n k₀ e c k' t y ∧ (uncontracted n k').card < (uncontracted n k).card := by
  have htree : k.tree = k₀.tree := (congrArg Kruskal.tree h.frame :)
  have hdepth : k.depth = k₀.depth := (congrArg Kruskal.depth h.frame :)
  rw [hdepth] at hle
  have hx := (h.mem_inner hr ha hb).1
  have hxend := h.jump_end
  obtain ⟨hr₁, hparent₁, hjump, hshortcuts, hcontracted⟩ := h.cutAbove_spec hr ha hb hxy hle
  have hgetD := getD_cutAbove k c (h.replacements.symm ▸ (mem_innerNodes.mp hx).2)
  have horder₁ : (cutAbove k c x).tree.order = n :=
    (congrArg OneTree.order htree).trans horder
  obtain ⟨k', t, heq, heval, hsame, hleads⟩ := climb_spec horder₁ hr₁
    ((Array.size_setIfInBounds ..).trans h.jumps) (hparent₁.symm ▸ hshortcuts) hx
  have hjump' : ∀ v, k'.jump v ≠ v ↔ k.jump v ≠ v ∨ v = x := fun v =>
    (not_congr (hsame.jump_eq_iff v)).trans (hcontracted v)
  refine ⟨k', t, heq, heval, ?_, card_uncontracted_lt hx hxend hjump'⟩
  have hthrough : ∀ {v}, Leads k.jump v x → Leads k'.jump v t := by
    intro v hv
    rw [hsame.leads_iff, hjump]
    apply Leads.redirect hxend hv
    have hnext := hleads.of_step
    rwa [hjump, Function.update_self] at hnext
  have hother : ∀ {v}, Leads k.jump v y → Leads k'.jump v y := by
    intro v hv
    rw [hsame.leads_iff, hjump]
    exact hv.redirect_of_ne hxend (Ne.symm hxy)
  have hframe : { k' with jumps := (cutAbove k c x).jumps } = cutAbove k c x := hsame.frame
  have hreplacements : k'.replacements = (cutAbove k c x).replacements :=
    (congrArg Kruskal.replacements hframe :)
  refine ⟨?_, hsame.jumps, ?_, hparent₁ ▸ hsame.shortcuts, ?_, fun v hv => ?_, fun v hv => ?_,
    fun v => ?_⟩
  · exact (congrArg (fun k : Kruskal α =>
      { k with jumps := k₀.jumps, replacements := k₀.replacements }) hframe).trans h.frame
  · rw [hreplacements]
    exact Array.size_setIfInBounds.trans h.replacements
  · exact h.ends.imp (fun h => ⟨hthrough h.1, hother h.2⟩) fun h => ⟨hother h.1, hthrough h.2⟩
  · obtain hv | rfl := (hjump' v).mp hv
    · exact h.covered v hv
    · exact .inr (h.covers_end hr ha hb hxy hle)
  · exact (hjump' v).mpr (.inl (h.kept v hv))
  · rw [hreplacements, hgetD]
    by_cases hvx : v = x
    · subst hvx
      have hold : k₀.jump v = v := by
        by_contra hne
        exact h.kept v hne hxend
      rw [if_pos rfl, if_pos ⟨hold, (hjump' v).mpr (.inr rfl)⟩]
    · rw [if_neg hvx, h.replaced v]
      have hiff : k'.jump v ≠ v ↔ k.jump v ≠ v := (hjump' v).trans (or_iff_left hvx)
      simp only [hiff]

/-- The contraction without bounds: the deeper one of two nodes moves on until the nodes meet. -/
inductive Contracts (c : α) : Kruskal α → ℕ → ℕ → Kruskal α → Prop where
  | done {k : Kruskal α} {x : ℕ} : Contracts c k x x k
  | first {k k₁ k' : Kruskal α} {x y t : ℕ} : x ≠ y → ¬ k.depth x < k.depth y →
      (k₁, t) ∈ StateTransition.eval climbStep (cutAbove k c x, x) → Contracts c k₁ t y k' →
      Contracts c k x y k'
  | second {k k₁ k' : Kruskal α} {x y t : ℕ} : x ≠ y → k.depth x < k.depth y →
      (k₁, t) ∈ StateTransition.eval climbStep (cutAbove k c y, y) → Contracts c k₁ t x k' →
      Contracts c k x y k'

theorem contractStep_spec (hr : k₀.IsRooted n) (horder : k₀.tree.order = n)
    (ha : e.1 ∈ innerNodes n) (hb : e.2 ∈ innerNodes n) (h : Contracting n k₀ e c k x y)
    (hxy : x ≠ y) :
    ∃ k' t u, contractStep c (k, x, y) = some (k', t, u) ∧
      (∀ {k''}, Contracts c k' t u k'' → Contracts c k x y k'') ∧
      Contracting n k₀ e c k' t u ∧ (uncontracted n k').card < (uncontracted n k).card := by
  by_cases hless : k.depth x < k.depth y
  · obtain ⟨k', t, heq, heval, hnext, hcard⟩ := h.symm.contract hr horder ha hb (Ne.symm hxy)
      (Nat.le_of_lt hless)
    rw [cutAbove] at heq
    refine ⟨k', t, x, ?_, .second hxy hless heval, hnext, hcard⟩
    rw [contractStep]
    simp only [hxy, hless, if_false, if_true, heq]
  · obtain ⟨k', t, heq, heval, hnext, hcard⟩ := h.contract hr horder ha hb hxy
      (Nat.le_of_not_lt hless)
    rw [cutAbove] at heq
    refine ⟨k', t, y, ?_, .first hxy hless heval, hnext, hcard⟩
    rw [contractStep]
    simp only [hxy, hless, if_false, heq]

/-- The contraction ends with the whole path contracted. -/
theorem iterate_contractStep (hr : k₀.IsRooted n) (horder : k₀.tree.order = n)
    (ha : e.1 ∈ innerNodes n) (hb : e.2 ∈ innerNodes n) (bound : ℕ)
    (h : Contracting n k₀ e c k x y) (hbound : (uncontracted n k).card < bound) :
    ∃ k' t, (iterate (contractStep c) bound (k, x, y)).1 = k' ∧ Contracts c k x y k' ∧
      Contracting n k₀ e c k' t t := by
  induction bound generalizing k x y with
  | zero => exact absurd hbound (Nat.not_lt_zero _)
  | succ bound ih =>
      by_cases hxy : x = y
      · subst hxy
        refine ⟨k, x, ?_, .done, h⟩
        rw [iterate, contractStep]
        simp only [if_true]
      · obtain ⟨k₁, t, u, heq, hcontracts, hnext, hcard⟩ := contractStep_spec hr horder ha hb h hxy
        rw [iterate, heq]
        obtain ⟨k', t, heq', hrest, hend⟩ := ih hnext (by omega)
        exact ⟨k', t, heq', hcontracts hrest, hend⟩

/-- Covering one path without bounds. -/
inductive CoversPath (k : Kruskal α) (e : Edge) : Kruskal α → Prop where
  | intro {k₁ k₂ k' : Kruskal α} {x y : ℕ} : (k₁, x) ∈ StateTransition.eval climbStep (k, e.1) →
      (k₂, y) ∈ StateTransition.eval climbStep (k₁, e.2) →
      Contracts (k.costs.cost e.1 e.2) k₂ x y k' → CoversPath k e k'

open Classical in
/-- The edges of a path that were left are contracted and get the cost as their replacement. -/
theorem coverPath_spec (hr : k.IsRooted n) (hk : k.Sized n) (ha : e.1 ∈ innerNodes n)
    (hb : e.2 ∈ innerNodes n) (hs : Shortcuts (innerNodes n) root k.parent k.jump) :
    ∃ k', coverPath k e = k' ∧ CoversPath k e k' ∧
      { k' with jumps := k.jumps, replacements := k.replacements } = k ∧ k'.Sized n ∧
      Shortcuts (innerNodes n) root k.parent k'.jump ∧
      (∀ v, k'.jump v ≠ v ↔ k.jump v ≠ v ∨ Covers k.parent e v) ∧
      ∀ v, k'.replacements.getD v Ranked.top =
        if k.jump v = v ∧ Covers k.parent e v then k.costs.cost e.1 e.2
        else k.replacements.getD v Ranked.top := by
  have horder := hk.tree.order_eq
  obtain ⟨k₁, x, heq₁, heval₁, hsame₁, hx⟩ := climb_spec horder hr hk.jumps hs ha
  have hframe₁ := hsame₁.frame
  have hparent₁ : k₁.parent = k.parent := (congrArg Kruskal.parent hframe₁ :)
  have hr₁ : IsRooted n { k₁ with jumps := k.jumps } := hframe₁.symm ▸ hr
  have horder₁ : k₁.tree.order = n := (congrArg (fun k : Kruskal α => k.tree.order)
    hframe₁ :).trans horder
  obtain ⟨k₂, y, heq₂, heval₂, hsame₂, hy⟩ := climb_spec horder₁ ⟨hr₁.tree, hr₁.depth, hr₁.depth_lt⟩
    hsame₁.jumps (hparent₁ ▸ hsame₁.shortcuts) hb
  have hsame := hsame₁.trans hsame₂
  have hstart : Contracting n k e (k.costs.cost e.1 e.2) k₂ x y :=
    hsame.contracting hk hx ((hsame₁.leads_iff _ _).mp hy)
  have hbound : (uncontracted n k₂).card < n := by
    have hle := Finset.card_filter_le (innerNodes n) fun v => k₂.jump v = v
    have hpos := (mem_innerNodes.mp hr.tree.root_mem).2
    rw [card_innerNodes] at hle
    rw [uncontracted]
    omega
  obtain ⟨k', t, heq, hcontracts, hend⟩ := iterate_contractStep hr horder ha hb n hstart hbound
  have hsized : Sized n { k' with jumps := k.jumps, replacements := k.replacements } :=
    hend.frame.symm ▸ hk
  refine ⟨k', ?_, ⟨heval₁, heval₂, hcontracts⟩, hend.frame,
    (hsized.withReplacements hend.replacements).withJumps hend.jumps, hend.shortcuts,
    hend.contracted_iff, fun v => ?_⟩
  · have horder₂ : k₂.tree.order = n := (congrArg (fun k : Kruskal α => k.tree.order)
      hsame.frame :).trans horder
    rw [coverPath]
    simp only [heq₁, heq₂, horder₂]
    exact heq
  · rw [hend.replaced v]
    apply if_congr _ rfl rfl
    rw [hend.contracted_iff v]
    apply and_congr_right
    intro hself
    exact or_iff_right fun hne => hne hself

/-! ### All replacements -/

/-- The cost of the first edge of a list that covers a tree edge; the top if there is none. -/
def IsFirstCost (costs : Table α) (up : ℕ → ℕ) (edges : List Edge) (v : ℕ) (c : α) : Prop :=
  (c = Ranked.top ∧ ∀ e ∈ edges, ¬ Covers up e v) ∨
    ∃ before e after, edges = before ++ e :: after ∧ Covers up e v ∧
      (∀ f ∈ before, ¬ Covers up f v) ∧ c = costs.cost e.1 e.2

/-- The edges considered so far are contracted and have their replacements. -/
structure Replaced (n : ℕ) (k₀ : Kruskal α) (done : List Edge) (k : Kruskal α) : Prop where
  frame : { k with jumps := k₀.jumps, replacements := k₀.replacements } = k₀
  sized : k.Sized n
  shortcuts : Shortcuts (innerNodes n) root k₀.parent k.jump
  contracted : ∀ v, k.jump v ≠ v ↔ ∃ e ∈ done, Covers k₀.parent e v
  replaced : ∀ v, IsFirstCost k₀.costs k₀.parent done v (k.replacements.getD v Ranked.top)

variable {done : List Edge}

theorem Replaced.next (hr : k₀.IsRooted n) (h : Replaced n k₀ done k) (ha : e.1 ∈ innerNodes n)
    (hb : e.2 ∈ innerNodes n) :
    CoversPath k e (coverPath k e) ∧ Replaced n k₀ (done ++ [e]) (coverPath k e) := by
  have hparent : k.parent = k₀.parent := (congrArg Kruskal.parent h.frame :)
  have hcosts : k.costs = k₀.costs := (congrArg Kruskal.costs h.frame :)
  have hr' : IsRooted n { k with jumps := k₀.jumps, replacements := k₀.replacements } :=
    h.frame.symm ▸ hr
  have hr₁ : k.IsRooted n := ⟨hr'.tree, hr'.depth, hr'.depth_lt⟩
  obtain ⟨k', heq, hcovers, hframe, hsized, hshortcuts, hcontracted, hreplaced⟩ :=
    coverPath_spec hr₁ h.sized ha hb (hparent ▸ h.shortcuts)
  rw [hparent] at hshortcuts hcontracted hreplaced
  rw [heq]
  refine ⟨hcovers, ?_, hsized, hshortcuts, fun v => ?_, fun v => ?_⟩
  · exact (congrArg (fun k' : Kruskal α =>
      { k' with jumps := k₀.jumps, replacements := k₀.replacements }) hframe).trans h.frame
  · rw [hcontracted, h.contracted]
    simp only [List.mem_append, List.mem_singleton, or_and_right, exists_or, exists_eq_left]
  · rw [hreplaced, hcosts]
    have hnone : k.jump v = v ↔ ∀ f ∈ done, ¬ Covers k₀.parent f v := by
      rw [← not_iff_not, ← ne_eq, h.contracted]
      simp only [not_forall, not_not, exists_prop]
    by_cases hfirst : k.jump v = v ∧ Covers k₀.parent e v
    · rw [if_pos hfirst]
      exact .inr ⟨done, e, [], rfl, hfirst.2, hnone.mp hfirst.1, rfl⟩
    · rw [if_neg hfirst]
      obtain ⟨hc, hdone⟩ | ⟨before, d, after, hsplit, hdv, hbefore, hc⟩ := h.replaced v
      · refine .inl ⟨hc, fun f hf => ?_⟩
        obtain hf | hf := List.mem_append.mp hf
        · exact hdone f hf
        · rw [List.mem_singleton.mp hf]
          exact fun hev => hfirst ⟨hnone.mpr hdone, hev⟩
      · exact .inr ⟨before, d, after ++ [e], by simp [hsplit], hdv, hbefore, hc⟩

/-- Covering the paths of all edges of a list without bounds. -/
inductive CoversPaths : Kruskal α → List Edge → Kruskal α → Prop where
  | nil {k : Kruskal α} : CoversPaths k [] k
  | cons {k k₁ k' : Kruskal α} {e : Edge} {edges : List Edge} : CoversPath k e k₁ →
      CoversPaths k₁ edges k' → CoversPaths k (e :: edges) k'

theorem replaced_foldl {edges rest : List Edge} (hr : k₀.IsRooted n)
    (hsplit : done ++ rest = edges)
    (hinner : ∀ e ∈ edges, e.1 ∈ innerNodes n ∧ e.2 ∈ innerNodes n) (h : Replaced n k₀ done k) :
    CoversPaths k rest (rest.foldl coverPath k) ∧
      Replaced n k₀ edges (rest.foldl coverPath k) := by
  induction rest generalizing done k with
  | nil =>
      rw [List.append_nil] at hsplit
      exact ⟨.nil, hsplit ▸ h⟩
  | cons e rest ih =>
      subst hsplit
      obtain ⟨ha, hb⟩ := hinner e (by simp)
      obtain ⟨hcovers, hnext⟩ := h.next hr ha hb
      obtain ⟨hrest, hend⟩ := ih (List.append_cons done e rest).symm hnext
      exact ⟨.cons hcovers hrest, hend⟩

/-- The finder without replacements, and with no tree edge contracted. -/
def replacementStart (k : Kruskal α) : Kruskal α :=
  { k with
    replacements := Array.replicate k.replacements.size Ranked.top
    jumps := Array.range k.jumps.size }

theorem computeReplacements_eq (k : Kruskal α) :
    k.computeReplacements = k.nonTreeEdges.foldl coverPath k.replacementStart := rfl

theorem replaced_start (hk : k.Sized n) :
    Replaced n k.replacementStart [] k.replacementStart := by
  have hjump : ∀ v, k.replacementStart.jump v = v := by
    intro v
    simp only [replacementStart, jump, Array.getD_eq_getD_getElem?, Array.getElem?_range]
    split <;> rfl
  have htop : ∀ v, k.replacementStart.replacements.getD v Ranked.top = Ranked.top := by
    intro v
    simp only [replacementStart, Array.getD_eq_getD_getElem?, Array.getElem?_replicate]
    split <;> rfl
  refine ⟨rfl, ?_, Shortcuts.start _ _ _ hjump, fun v => ?_, fun v => ?_⟩
  · exact (hk.withReplacements (Array.size_replicate.trans hk.replacements)).withJumps
      (Array.size_range.trans hk.jumps)
  · simp [hjump]
  · exact .inl ⟨htop v, by simp⟩

/-- Every tree edge gets the cost of the first edge that covers it. -/
theorem computeReplacements_first (hr : k.IsRooted n) (hk : k.Sized n)
    (hinner : ∀ e ∈ k.nonTreeEdges, e.1 ∈ innerNodes n ∧ e.2 ∈ innerNodes n) :
    ∃ k', computeReplacements k = k' ∧ CoversPaths k.replacementStart k.nonTreeEdges k' ∧
      { k' with jumps := k.jumps, replacements := k.replacements } = k ∧ k'.Sized n ∧
      ∀ v, IsFirstCost k.costs k.parent k.nonTreeEdges v (k'.replacements.getD v Ranked.top) := by
  have hr₀ : k.replacementStart.IsRooted n := ⟨hr.tree, hr.depth, hr.depth_lt⟩
  obtain ⟨hcovers, hend⟩ := replaced_foldl hr₀ (List.nil_append _) hinner (replaced_start hk)
  refine ⟨_, computeReplacements_eq k, hcovers, ?_, hend.sized, hend.replaced⟩
  exact (congrArg (fun k' : Kruskal α =>
    { k' with jumps := k.jumps, replacements := k.replacements }) hend.frame :)

end Replacing

/-! ### Exact numbers -/

/-- The cost of a cheapest edge of a list that covers a tree edge; the top if there is none. -/
def IsReplacement (cost : Sym2 ℕ → ℚ) (up : ℕ → ℕ) (edges : List Edge) (v : ℕ) (c : Exact) :
    Prop :=
  (c = .top ∧ ∀ e ∈ edges, ¬ Covers up e v) ∨
    ∃ e ∈ edges, Covers up e v ∧ c = .number (cost (sym e)) ∧
      ∀ f ∈ edges, Covers up f v → cost (sym e) ≤ cost (sym f)

/-- Every tree edge gets the cost of its cheapest replacement. -/
theorem computeReplacements_spec {cost : Sym2 ℕ → ℚ} {k : Kruskal Exact} (hr : k.IsRooted n)
    (hk : k.Sized n) (hcosts : k.costs.Charges n cost)
    (hinner : ∀ e ∈ k.nonTreeEdges, e.1 ∈ innerNodes n ∧ e.2 ∈ innerNodes n)
    (hsorted : k.nonTreeEdges.Pairwise fun e f => cost (sym e) ≤ cost (sym f)) :
    ∃ k', computeReplacements k = k' ∧
      { k' with jumps := k.jumps, replacements := k.replacements } = k ∧ k'.Sized n ∧
      ∀ v, IsReplacement cost k.parent k.nonTreeEdges v (k'.replacements.getD v .top) := by
  obtain ⟨k', heq, -, hframe, hsized, hfirst⟩ := computeReplacements_first hr hk hinner
  refine ⟨k', heq, hframe, hsized, fun v => ?_⟩
  obtain hnone | ⟨before, e, after, hsplit, hev, hbefore, hc⟩ := hfirst v
  · exact .inl hnone
  · rw [hsplit] at hinner hsorted ⊢
    obtain ⟨ha, hb⟩ := hinner e (by simp)
    have hcost := hcosts.cost_eq _ (mem_innerNodes.mp ha).2 _ (mem_innerNodes.mp hb).2
    refine .inr ⟨e, by simp, hev, hc.trans hcost, fun f hf hfv => ?_⟩
    obtain hf | hf := List.mem_append.mp hf
    · exact absurd hfv (hbefore f hf)
    · obtain rfl | hf := List.mem_cons.mp hf
      · exact le_refl _
      · exact (List.pairwise_cons.mp (List.pairwise_append.mp hsorted).2.1).1 f hf

end Kruskal

end GraphInterval
