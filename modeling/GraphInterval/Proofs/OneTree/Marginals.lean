import GraphInterval.Proofs.OneTree.Replacement

/-!
# Marginal costs

The marginal cost of an edge is the difference that including it in the
one-tree makes to the least cost, or excluding it if it belongs to the
cheapest one-tree.  The path maxima, the replacements and the extremes of the
designated node answer which single exchange is the best one, and no other
one-tree is better than a single exchange.
-/

namespace GraphInterval

namespace Kruskal

open OneTree

variable {n : ℕ} {cost : Sym2 ℕ → ℚ} {g : GraphVar} {k k₀ : Kruskal Exact} {e : Edge} {v : ℕ}

/-! ### What the analysis reads -/

/-- The tree is rooted, with its path maxima and replacements. -/
structure Prepared (n : ℕ) (cost : Sym2 ℕ → ℚ) (g : GraphVar) (k₀ k : Kruskal Exact) : Prop where
  computed : Computed n cost g k
  tree_eq : k.tree = k₀.tree
  rooted : k.IsRooted n
  pathMaxima : ∀ a ∈ innerNodes n, ∀ b ∈ innerNodes n,
    IsPathMaximum (innerEdges k.tree.edgeSet) (weight g cost) a b
      (k.pathMaxima.entry a b .bottom)
  replacements : ∀ v,
    IsReplacement cost k.parent k.nonTreeEdges v (k.replacements.getD v .top)

theorem prepare_spec (hn : 2 ≤ n) (hg : g.IsSimple n) (h : Computed n cost g k) :
    Prepared n cost g k (prepare g k) := by
  have htree := h.cheapest.candidate.base.inner
  have hnodup : ((innerPairs k.tree).map sym).Nodup :=
    h.represents.nodup.sublist (List.filter_sublist.map sym)
  obtain ⟨hframe₁, hsized₁, hlisted₁, hrooted₁⟩ := rootTree_spec hn h.sized hnodup htree
  have htree₁ : k.rootTree.tree = k.tree := (congrArg Kruskal.tree hframe₁ :)
  have hcosts₁ : k.rootTree.costs = k.costs := (congrArg Kruskal.costs hframe₁ :)
  have hedges₁ : k.rootTree.nonTreeEdges = k.nonTreeEdges :=
    (congrArg Kruskal.nonTreeEdges hframe₁ :)
  obtain ⟨k₂, heq₂, hframe₂, hsized₂, hgrows₂⟩ := computePathMaxima_spec g hsized₁ hlisted₁
    (htree₁ ▸ htree)
  have htree₂ : k₂.tree = k.tree := (congrArg Kruskal.tree hframe₂ :).trans htree₁
  have hcosts₂ : k₂.costs = k.costs := (congrArg Kruskal.costs hframe₂ :).trans hcosts₁
  have hedges₂ : k₂.nonTreeEdges = k.nonTreeEdges :=
    (congrArg Kruskal.nonTreeEdges hframe₂ :).trans hedges₁
  have hrooted₂ := hframe₂.isRooted hrooted₁
  obtain ⟨k₃, heq₃, hframe₃, hsized₃, hreplaced₃⟩ :=
    computeReplacements_spec hrooted₂ hsized₂ (hcosts₂ ▸ h.costs)
      (fun e he => inner_of_mem ((h.nonTree e).mp (hedges₂ ▸ he)).1) (hedges₂ ▸ h.sorted)
  have htree₃ : k₃.tree = k₂.tree := (congrArg Kruskal.tree hframe₃ :)
  have hcosts₃ : k₃.costs = k₂.costs := (congrArg Kruskal.costs hframe₃ :)
  have hedges₃ : k₃.nonTreeEdges = k₂.nonTreeEdges := (congrArg Kruskal.nonTreeEdges hframe₃ :)
  have hparent₃ : k₃.parent = k₂.parent := (congrArg Kruskal.parent hframe₃ :)
  have hmaxima₃ : k₃.pathMaxima = k₂.pathMaxima := (congrArg Kruskal.pathMaxima hframe₃ :)
  have hrooted₃ : IsRooted n { k₃ with jumps := k₂.jumps, replacements := k₂.replacements } :=
    hframe₃.symm ▸ hrooted₂
  have htree' := htree₃.trans htree₂
  have hcosts' := hcosts₃.trans hcosts₂
  have hedges' := hedges₃.trans hedges₂
  rw [prepare, heq₂, heq₃]
  refine ⟨⟨hsized₃, hcosts' ▸ h.costs, htree' ▸ h.represents, htree' ▸ h.cheapest, ?_,
    hedges' ▸ h.sorted⟩, htree', ⟨hrooted₃.tree, hrooted₃.depth, hrooted₃.depth_lt⟩, ?_, ?_⟩
  · rw [hedges', htree']
    exact h.nonTree
  · rw [htree', hmaxima₃, ← htree₁]
    exact fun a ha b hb => isPathMaximum_of_grows hg (hcosts₁ ▸ h.costs) (hgrows₂ a ha) hb
  · rw [hparent₃, hedges₃]
    exact hreplaced₃

/-! ### Edges of the analysis -/

/-- What the analysis records of one edge. -/
structure Note where
  edge : Edge
  /-- Whether the edge belongs to the one-tree. -/
  inside : Bool
  marginal : Exact

/-- The least cost of the one-trees that have an edge, or that lack it if the last one-tree has it. -/
def IsChangeCost (n : ℕ) (cost : Sym2 ℕ → ℚ) (g : GraphVar) (T : Finset (Sym2 ℕ)) (e : Sym2 ℕ)
    (x : Exact) : Prop :=
  IsLeastCost cost (fun S => Candidate (IsOneTree n) g.mandatoryEdges g.possibleEdges S ∧
    (e ∈ S ↔ e ∉ T)) x

/-- The note is about an edge that may be changed, and the cost of that is right. -/
structure Note.Correct (n : ℕ) (cost : Sym2 ℕ → ℚ) (g : GraphVar) (k : Kruskal Exact)
    (note : Note) : Prop where
  lt : note.edge.1 < n ∧ note.edge.2 < n
  isPotential : g.isPotential note.edge.1 note.edge.2 = true
  isMandatory : g.isMandatory note.edge.1 note.edge.2 = false
  inside_iff : note.inside = true ↔ sym note.edge ∈ k.tree.edgeSet
  cost : IsChangeCost n cost g k.tree.edgeSet (sym note.edge) (k.bound + note.marginal)

/-- The right cost of including an edge. -/
theorem isChangeCost_including (h : Computed n cost g k) {e : Sym2 ℕ} (he : e ∈ g.possibleEdges)
    (heT : e ∉ k.tree.edgeSet) {m : Exact}
    (hm : (m = .top ∧ ∀ d ∈ k.tree.edgeSet, d ∉ g.mandatoryEdges →
        ¬ IsOneTree n (insert e (k.tree.edgeSet.erase d))) ∨
      ∃ f ∈ k.tree.edgeSet, f ∉ g.mandatoryEdges ∧
        IsOneTree n (insert e (k.tree.edgeSet.erase f)) ∧ m = .number (cost e - cost f) ∧
        ∀ d ∈ k.tree.edgeSet, d ∉ g.mandatoryEdges →
          IsOneTree n (insert e (k.tree.edgeSet.erase d)) → cost d ≤ cost f) :
    IsChangeCost n cost g k.tree.edgeSet e (k.bound + m) := by
  rw [bound, h.represents.cost_eq]
  apply (h.cheapest.isLeastCost_including (exchanges_oneTree n) he heT hm).congr
  intro S
  apply and_congr_right
  intro _
  exact (iff_true_right heT).symm

/-- The right cost of excluding an edge. -/
theorem isChangeCost_excluding (h : Computed n cost g k) {e : Sym2 ℕ}
    (heT : e ∈ k.tree.edgeSet) (heM : e ∉ g.mandatoryEdges) {m : Exact}
    (hm : (m = .top ∧ ∀ d ∈ g.possibleEdges, d ∉ k.tree.edgeSet →
        ¬ IsOneTree n (insert d (k.tree.edgeSet.erase e))) ∨
      ∃ f ∈ g.possibleEdges, f ∉ k.tree.edgeSet ∧
        IsOneTree n (insert f (k.tree.edgeSet.erase e)) ∧ m = .number (cost f - cost e) ∧
        ∀ d ∈ g.possibleEdges, d ∉ k.tree.edgeSet →
          IsOneTree n (insert d (k.tree.edgeSet.erase e)) → cost f ≤ cost d) :
    IsChangeCost n cost g k.tree.edgeSet e (k.bound + m) := by
  rw [bound, h.represents.cost_eq]
  apply (h.cheapest.isLeastCost_excluding (exchanges_oneTree n) heT heM hm).congr
  intro S
  apply and_congr_right
  intro _
  exact (iff_false_right (not_not.mpr heT)).symm

theorem Computed.mem_of_isMandatory (hg : g.IsSimple n) (h : Computed n cost g k) {a b : ℕ}
    (hab : g.isMandatory a b = true) : s(a, b) ∈ k.tree.edgeSet :=
  h.cheapest.candidate.mandatory _ (hg.mem_mandatoryEdges.mpr hab)

/-- A possible edge away from the designated node and outside of the tree was passed over. -/
theorem Computed.exists_nonTree (hg : g.IsSimple n) (h : Computed n cost g k) {d : Sym2 ℕ}
    (hd : d ∈ g.possibleEdges) (hinner : designated ∉ d) (hdT : d ∉ k.tree.edgeSet) :
    ∃ p ∈ k.nonTreeEdges, sym p = d := by
  obtain ⟨x, y, rfl, hxy⟩ := hd
  rw [Sym2.mem_iff, not_or] at hinner
  obtain ⟨hx, hy⟩ := hg.lt_of_isPotential hxy
  obtain ⟨p, hp, heq⟩ := exists_pair hg (mem_innerNodes.mpr ⟨Ne.symm hinner.1, hx⟩)
    (mem_innerNodes.mpr ⟨Ne.symm hinner.2, hy⟩) hxy
  exact ⟨p, (h.nonTree p).mpr ⟨hp, heq ▸ hdT⟩, heq⟩

theorem inclusionCost_number (c d : ℚ) :
    inclusionCost (Exact.number c) (.number d) = .number (c - d) := by
  rw [inclusionCost, Exact.bottom_eq, if_neg (by simp), Exact.number_sub_number]

theorem inclusionCost_bottom (c : Exact) : inclusionCost c .bottom = .top := by
  rw [inclusionCost, Exact.bottom_eq, if_pos (by simp), Exact.top_eq]

/-! ### Edges away from the designated node -/

theorem correct_nonTree (hg : g.IsSimple n) (h : Prepared n cost g k₀ k)
    (he : e ∈ k.nonTreeEdges) :
    Note.Correct n cost g k ⟨e, false, inclusionCost (k.costs.cost e.1 e.2)
      (k.pathMaxima.entry e.1 e.2 .bottom)⟩ := by
  obtain ⟨heP, heT⟩ := (h.computed.nonTree e).mp he
  obtain ⟨ha, hb⟩ := inner_of_mem heP
  obtain ⟨-, hab, hbn, hpotential⟩ := mem_possiblePairs.mp heP
  have hone := h.computed.cheapest.candidate.base
  have hmaximum := h.pathMaxima e.1 ha e.2 hb
  have hmandatory : g.isMandatory e.1 e.2 = false := by
    rw [Bool.eq_false_iff]
    exact fun hM => heT (h.computed.mem_of_isMandatory hg hM)
  -- an optional edge may be replaced exactly if it is on the path
  have hpath : ∀ d ∈ k.tree.edgeSet, IsOneTree n (insert s(e.1, e.2) (k.tree.edgeSet.erase d)) ↔
      d ∈ innerEdges k.tree.edgeSet ∧ ¬ Joined ((innerEdges k.tree.edgeSet).erase d) e.1 e.2 := by
    intro d hd
    rw [hone.exchange_inner_iff ha hb heT hd, mem_innerEdges, and_iff_right hd]
  refine ⟨⟨hab.trans hbn, hbn⟩, hpotential, hmandatory, ?_, ?_⟩
  · exact iff_of_false Bool.false_ne_true heT
  · apply isChangeCost_including h.computed (hg.mem_possibleEdges.mpr hpotential) heT
    rw [h.computed.costs.cost_eq _ (hab.trans hbn) _ hbn]
    by_cases hbottom : k.pathMaxima.entry e.1 e.2 .bottom = .bottom
    · left
      rw [hbottom]
      refine ⟨inclusionCost_bottom (.number (cost s(e.1, e.2))), fun d hd hdM hbase => ?_⟩
      obtain ⟨hdI, hjoined⟩ := (hpath d hd).mp hbase
      have hle := hmaximum.le d hdI hjoined
      rw [hbottom, weight, if_neg hdM, Exact.le_iff_not_lt] at hle
      exact hle Exact.bottom_lt_number
    · right
      obtain ⟨f, hfI, hjoined, hw⟩ := hmaximum.attained.resolve_left hbottom
      have hfM : f ∉ g.mandatoryEdges := by
        intro hM
        rw [weight, if_pos hM] at hw
        exact hbottom hw.symm
      rw [weight, if_neg hfM] at hw
      have hfT := (mem_innerEdges.mp hfI).1
      refine ⟨f, hfT, hfM, (hpath f hfT).mpr ⟨hfI, hjoined⟩, ?_, fun d hd hdM hbase => ?_⟩
      · rw [← hw]
        exact inclusionCost_number _ _
      · obtain ⟨hdI, hjoined'⟩ := (hpath d hd).mp hbase
        have hle := hmaximum.le d hdI hjoined'
        rwa [← hw, weight, if_neg hdM, Exact.number_le_number] at hle

/-- An edge that was passed over may take the place of a tree edge exactly if it covers it. -/
theorem exchange_iff_covers (h : Prepared n cost g k₀ k) (hv : v ∈ innerNodes n) (hvr : v ≠ root)
    {p : Edge} (hp : p ∈ k.nonTreeEdges) :
    IsOneTree n (insert (sym p) (k.tree.edgeSet.erase s(v, k.parent v))) ↔
      Covers k.parent p v := by
  obtain ⟨hvT, hinner⟩ := mem_innerEdges.mp (h.rooted.tree.edge v hv hvr)
  obtain ⟨hpP, hpT⟩ := (h.computed.nonTree p).mp hp
  obtain ⟨ha, hb⟩ := inner_of_mem hpP
  rw [sym, h.computed.cheapest.candidate.base.exchange_inner_iff ha hb hpT hvT,
    and_iff_right hinner, h.rooted.tree.joined_erase_iff hvr ha hb, Covers]

/-- Only an edge that was passed over may take the place of a tree edge. -/
theorem exists_passed_of_exchange (hg : g.IsSimple n) (h : Prepared n cost g k₀ k)
    (hv : v ∈ innerNodes n) (hvr : v ≠ root) {d : Sym2 ℕ} (hd : d ∈ g.possibleEdges)
    (hdT : d ∉ k.tree.edgeSet)
    (hbase : IsOneTree n (insert d (k.tree.edgeSet.erase s(v, k.parent v)))) :
    ∃ p ∈ k.nonTreeEdges, sym p = d := by
  obtain ⟨hvT, hinner⟩ := mem_innerEdges.mp (h.rooted.tree.edge v hv hvr)
  apply h.computed.exists_nonTree hg hd _ hdT
  intro hdd
  obtain ⟨w, rfl⟩ := exists_eq_of_mem hdd
  have hw := mem_inner_of_isPotential hg (hg.mem_possibleEdges.mp hd)
  exact hinner ((h.computed.cheapest.candidate.base.exchange_outer_iff hw hdT hvT).mp hbase)

theorem correct_parentEdge (hg : g.IsSimple n) (h : Prepared n cost g k₀ k)
    (hv : v ∈ innerNodes n) (hvr : v ≠ root) (hmandatory : g.isMandatory v (k.parent v) = false) :
    Note.Correct n cost g k ⟨(v, k.parent v), true,
      k.replacements.getD v .top - k.costs.cost v (k.parent v)⟩ := by
  have hvT := (mem_innerEdges.mp (h.rooted.tree.edge v hv hvr)).1
  have hvn := (mem_innerNodes.mp hv).2
  have hpn := (mem_innerNodes.mp (h.rooted.tree.up_mem hv)).2
  have hvM : s(v, k.parent v) ∉ g.mandatoryEdges := fun hM =>
    absurd (hmandatory.symm.trans (hg.mem_mandatoryEdges.mp hM)) (by simp)
  have hcover : ∀ p ∈ k.nonTreeEdges,
      IsOneTree n (insert (sym p) (k.tree.edgeSet.erase s(v, k.parent v))) ↔
        Covers k.parent p v := fun p hp => exchange_iff_covers h hv hvr hp
  refine ⟨⟨hvn, hpn⟩, hg.mem_possibleEdges.mp (h.computed.cheapest.candidate.possible _ hvT),
    hmandatory, iff_of_true rfl hvT, ?_⟩
  apply isChangeCost_excluding h.computed hvT hvM
  rw [h.computed.costs.cost_eq _ hvn _ hpn]
  obtain ⟨hc, hnone⟩ | ⟨p, hp, hpv, hc, hmin⟩ := h.replacements v
  · left
    rw [hc]
    refine ⟨Exact.top_sub_number, fun d hd hdT hbase => ?_⟩
    obtain ⟨p, hp, rfl⟩ := exists_passed_of_exchange hg h hv hvr hd hdT hbase
    exact hnone p hp ((hcover p hp).mp hbase)
  · right
    rw [hc]
    obtain ⟨hpP, hpT⟩ := (h.computed.nonTree p).mp hp
    have hpU : sym p ∈ g.possibleEdges :=
      hg.mem_possibleEdges.mpr (mem_possiblePairs.mp hpP).2.2.2
    refine ⟨sym p, hpU, hpT, (hcover p hp).mpr hpv, Exact.number_sub_number,
      fun d hd hdT hbase => ?_⟩
    obtain ⟨q, hq, rfl⟩ := exists_passed_of_exchange hg h hv hvr hd hdT hbase
    exact hmin q hq ((hcover q hq).mp hbase)

/-! ### Edges of the designated node -/

/-- The largest cost of some optional edges at the designated node that belong to the one-tree, and
the smallest cost of some that do not. -/
structure Extremes (cost : Sym2 ℕ → ℚ) (g : GraphVar) (T : Finset (Sym2 ℕ)) (nodes : List ℕ)
    (x : Exact × Exact) : Prop where
  le_fst : ∀ v ∈ nodes, s(designated, v) ∈ T → g.isMandatory designated v = false →
    .number (cost s(designated, v)) ≤ x.1
  fst : x.1 = .bottom ∨ ∃ v ∈ nodes, s(designated, v) ∈ T ∧ g.isMandatory designated v = false ∧
    x.1 = .number (cost s(designated, v))
  snd_le : ∀ v ∈ nodes, s(designated, v) ∉ T → x.2 ≤ .number (cost s(designated, v))
  snd : x.2 = .top ∨ ∃ v ∈ nodes, s(designated, v) ∉ T ∧ x.2 = .number (cost s(designated, v))

namespace Extremes

variable {T : Finset (Sym2 ℕ)} {nodes : List ℕ} {chosen unchosen : Exact}

theorem start (cost : Sym2 ℕ → ℚ) (g : GraphVar) (T : Finset (Sym2 ℕ)) :
    Extremes cost g T [] (.bottom, .top) :=
  ⟨by simp, .inl rfl, by simp, .inl rfl⟩

/-- A mandatory edge of the one-tree is no candidate. -/
theorem mandatory (h : Extremes cost g T nodes (chosen, unchosen)) (hT : s(designated, v) ∈ T)
    (hM : g.isMandatory designated v = true) :
    Extremes cost g T (nodes ++ [v]) (chosen, unchosen) := by
  refine ⟨List.forall_mem_append.mpr ⟨h.le_fst, ?_⟩, ?_,
    List.forall_mem_append.mpr ⟨h.snd_le, ?_⟩, ?_⟩
  · refine List.forall_mem_singleton.mpr fun _ hoptional => ?_
    exact absurd (hM.symm.trans hoptional) (by simp)
  · exact h.fst.imp_right fun ⟨w, hw, hrest⟩ => ⟨w, List.mem_append_left _ hw, hrest⟩
  · exact List.forall_mem_singleton.mpr fun hnot => absurd hT hnot
  · exact h.snd.imp_right fun ⟨w, hw, hrest⟩ => ⟨w, List.mem_append_left _ hw, hrest⟩

/-- An optional edge of the one-tree may have the largest cost. -/
theorem inside (h : Extremes cost g T nodes (chosen, unchosen)) (hT : s(designated, v) ∈ T)
    (hM : g.isMandatory designated v = false) :
    Extremes cost g T (nodes ++ [v])
      (Scalar.larger chosen (.number (cost s(designated, v))), unchosen) := by
  refine ⟨List.forall_mem_append.mpr ⟨fun w hw hwT hwM => ?_, ?_⟩, ?_,
    List.forall_mem_append.mpr ⟨h.snd_le, ?_⟩, ?_⟩
  · exact Exact.le_trans (h.le_fst w hw hwT hwM) (Exact.le_larger_left _ _)
  · exact List.forall_mem_singleton.mpr fun _ _ => Exact.le_larger_right _ _
  · obtain heq | heq := Exact.larger_eq_or chosen (.number (cost s(designated, v)))
    · rw [heq]
      exact h.fst.imp_right fun ⟨w, hw, hrest⟩ => ⟨w, List.mem_append_left _ hw, hrest⟩
    · exact .inr ⟨v, by simp, hT, hM, heq⟩
  · exact List.forall_mem_singleton.mpr fun hnot => absurd hT hnot
  · exact h.snd.imp_right fun ⟨w, hw, hrest⟩ => ⟨w, List.mem_append_left _ hw, hrest⟩

/-- An edge outside the one-tree may have the smallest cost. -/
theorem outside (h : Extremes cost g T nodes (chosen, unchosen)) (hT : s(designated, v) ∉ T) :
    Extremes cost g T (nodes ++ [v])
      (chosen, Scalar.smaller unchosen (.number (cost s(designated, v)))) := by
  refine ⟨List.forall_mem_append.mpr ⟨h.le_fst, ?_⟩, ?_,
    List.forall_mem_append.mpr ⟨fun w hw hwT => ?_, ?_⟩, ?_⟩
  · exact List.forall_mem_singleton.mpr fun hin => absurd hin hT
  · exact h.fst.imp_right fun ⟨w, hw, hrest⟩ => ⟨w, List.mem_append_left _ hw, hrest⟩
  · exact Exact.le_trans (Exact.smaller_le_left _ _) (h.snd_le w hw hwT)
  · exact List.forall_mem_singleton.mpr fun _ => Exact.smaller_le_right _ _
  · obtain heq | heq := Exact.smaller_eq_or unchosen (.number (cost s(designated, v)))
    · rw [heq]
      exact h.snd.imp_right fun ⟨w, hw, hrest⟩ => ⟨w, List.mem_append_left _ hw, hrest⟩
    · exact .inr ⟨v, by simp, hT, heq⟩

end Extremes

theorem mem_successors (hg : g.IsSimple n) :
    v ∈ (g.upper.successors designated).toList ↔ g.isPotential designated v = true :=
  Graph.mem_successors hg.valid.upper

theorem contains_designated (h : Computed n cost g k) (hv : v < n) :
    k.tree.contains designated v = true ↔ s(designated, v) ∈ k.tree.edgeSet :=
  h.represents.contains_iff designated (Nat.lt_of_le_of_lt (Nat.zero_le v) hv) v hv

theorem designatedExtremes_spec (hg : g.IsSimple n) (h : Computed n cost g k) :
    Extremes cost g k.tree.edgeSet (g.upper.successors designated).toList
      (designatedExtremes g k) := by
  have hlt : ∀ v ∈ (g.upper.successors designated).toList, v < n := fun v hv =>
    (hg.lt_of_isPotential ((mem_successors hg).mp hv)).2
  rw [designatedExtremes]
  generalize (g.upper.successors designated).toList = nodes at hlt
  -- induction from the last node, since the extremes are accumulated from the first one
  induction nodes using List.reverseRecOn with
  | nil => exact .start cost g k.tree.edgeSet
  | append_singleton nodes v ih =>
      have hv := hlt v (by simp)
      have hzero : designated < n := Nat.lt_of_le_of_lt (Nat.zero_le v) hv
      have hextremes := ih fun w hw => hlt w (List.mem_append_left _ hw)
      rw [List.foldl_append, List.foldl_cons, List.foldl_nil]
      generalize nodes.foldl _ _ = x at hextremes
      obtain ⟨chosen, unchosen⟩ := x
      simp only [h.costs.cost_eq _ hzero _ hv, contains_designated h hv]
      by_cases hT : s(designated, v) ∈ k.tree.edgeSet
      · rw [if_pos hT]
        by_cases hM : g.isMandatory designated v = true
        · rw [if_pos hM]
          exact hextremes.mandatory hT hM
        · rw [if_neg hM]
          exact hextremes.inside hT (Bool.eq_false_iff.mpr hM)
      · rw [if_neg hT]
        exact hextremes.outside hT

theorem correct_designated_outside (hg : g.IsSimple n) (h : Computed n cost g k)
    (hv : g.isPotential designated v = true) (hmandatory : g.isMandatory designated v = false)
    (hvT : s(designated, v) ∉ k.tree.edgeSet) :
    Note.Correct n cost g k ⟨(designated, v), false,
      inclusionCost (k.costs.cost designated v) (designatedExtremes g k).1⟩ := by
  have hlt := hg.lt_of_isPotential hv
  have hone := h.cheapest.candidate.base
  have hextremes := designatedExtremes_spec hg h
  have hvinner := mem_inner_of_isPotential hg hv
  refine ⟨hlt, hv, hmandatory, iff_of_false Bool.false_ne_true hvT, ?_⟩
  apply isChangeCost_including h (hg.mem_possibleEdges.mpr hv) hvT
  rw [h.costs.cost_eq _ hlt.1 _ hlt.2]
  obtain hbottom | ⟨w, hw, hwT, hwM, hw'⟩ := hextremes.fst
  · left
    rw [hbottom]
    refine ⟨inclusionCost_bottom (.number (cost s(designated, v))), fun d hd hdM hbase => ?_⟩
    obtain ⟨w, rfl⟩ := exists_eq_of_mem ((hone.exchange_outer_iff hvinner hvT hd).mp hbase)
    have hpotential := hg.mem_possibleEdges.mp (h.cheapest.candidate.possible _ hd)
    have hwM : g.isMandatory designated w = false := by
      rw [Bool.eq_false_iff]
      exact fun hM => hdM (hg.mem_mandatoryEdges.mpr hM)
    have hle := hextremes.le_fst w ((mem_successors hg).mpr hpotential) hd hwM
    rw [hbottom, Exact.le_iff_not_lt] at hle
    exact hle Exact.bottom_lt_number
  · right
    have hwM' : s(designated, w) ∉ g.mandatoryEdges := fun hM =>
      absurd (hwM.symm.trans (hg.mem_mandatoryEdges.mp hM)) (by simp)
    rw [hw']
    refine ⟨s(designated, w), hwT, hwM', (hone.exchange_outer_iff hvinner hvT hwT).mpr
      (Sym2.mem_mk_left _ _), inclusionCost_number _ _, fun d hd hdM hbase => ?_⟩
    obtain ⟨u, rfl⟩ := exists_eq_of_mem ((hone.exchange_outer_iff hvinner hvT hd).mp hbase)
    have hpotential := hg.mem_possibleEdges.mp (h.cheapest.candidate.possible _ hd)
    have huM : g.isMandatory designated u = false := by
      rw [Bool.eq_false_iff]
      exact fun hM => hdM (hg.mem_mandatoryEdges.mpr hM)
    have hle := hextremes.le_fst u ((mem_successors hg).mpr hpotential) hd huM
    rwa [hw', Exact.number_le_number] at hle

theorem correct_designated_inside (hg : g.IsSimple n) (h : Computed n cost g k)
    (hv : g.isPotential designated v = true) (hmandatory : g.isMandatory designated v = false)
    (hvT : s(designated, v) ∈ k.tree.edgeSet) :
    Note.Correct n cost g k ⟨(designated, v), true,
      (designatedExtremes g k).2 - k.costs.cost designated v⟩ := by
  have hlt := hg.lt_of_isPotential hv
  have hone := h.cheapest.candidate.base
  have hextremes := designatedExtremes_spec hg h
  have hvM : s(designated, v) ∉ g.mandatoryEdges := fun hM =>
    absurd (hmandatory.symm.trans (hg.mem_mandatoryEdges.mp hM)) (by simp)
  -- only another edge of the designated node may take the place
  have houter : ∀ d ∈ g.possibleEdges, d ∉ k.tree.edgeSet →
      IsOneTree n (insert d (k.tree.edgeSet.erase s(designated, v))) →
        ∃ w, d = s(designated, w) := by
    intro d hd hdT hbase
    by_contra hnot
    have hinner : designated ∉ d := fun hdd => hnot (exists_eq_of_mem hdd)
    obtain ⟨p, hp, rfl⟩ := h.exists_nonTree hg hd hinner hdT
    obtain ⟨ha, hb⟩ := inner_of_mem ((h.nonTree p).mp hp).1
    exact ((hone.exchange_inner_iff ha hb hdT hvT).mp hbase).1 (Sym2.mem_mk_left _ _)
  refine ⟨hlt, hv, hmandatory, iff_of_true rfl hvT, ?_⟩
  apply isChangeCost_excluding h hvT hvM
  rw [h.costs.cost_eq _ hlt.1 _ hlt.2]
  obtain htop | ⟨w, hw, hwT, hw'⟩ := hextremes.snd
  · left
    rw [htop]
    refine ⟨Exact.top_sub_number, fun d hd hdT hbase => ?_⟩
    obtain ⟨w, rfl⟩ := houter d hd hdT hbase
    have hle := hextremes.snd_le w ((mem_successors hg).mpr (hg.mem_possibleEdges.mp hd)) hdT
    rw [htop, Exact.le_iff_not_lt] at hle
    exact hle Exact.number_lt_top
  · right
    have hpotential := (mem_successors hg).mp hw
    have hwinner := mem_inner_of_isPotential hg hpotential
    rw [hw']
    refine ⟨s(designated, w), hg.mem_possibleEdges.mpr hpotential, hwT,
      (hone.exchange_outer_iff hwinner hwT hvT).mpr (Sym2.mem_mk_left _ _),
      Exact.number_sub_number, fun d hd hdT hbase => ?_⟩
    obtain ⟨u, rfl⟩ := houter d hd hdT hbase
    have hle := hextremes.snd_le u ((mem_successors hg).mpr (hg.mem_possibleEdges.mp hd)) hdT
    rwa [hw', Exact.number_le_number] at hle

/-! ### The whole analysis -/

/-- The note about the edge between a node and its parent. -/
def parentNote? (g : GraphVar) (k : Kruskal Exact) (v : ℕ) : Option Note :=
  if g.isMandatory v (k.parent v) then none
  else some ⟨(v, k.parent v), true, k.replacements.getD v .top - k.costs.cost v (k.parent v)⟩

/-- The note about an edge of the designated node. -/
def designatedNote? (g : GraphVar) (k : Kruskal Exact) (v : ℕ) : Option Note :=
  if g.isMandatory designated v then none
  else if k.tree.contains designated v then
    some ⟨(designated, v), true, (designatedExtremes g k).2 - k.costs.cost designated v⟩
  else
    some ⟨(designated, v), false,
      inclusionCost (k.costs.cost designated v) (designatedExtremes g k).1⟩

/-- All notes of an analysis in their order. -/
def notes (g : GraphVar) (k : Kruskal Exact) : List Note :=
  (k.nonTreeEdges.map fun e => ⟨e, false, inclusionCost (k.costs.cost e.1 e.2)
      (k.pathMaxima.entry e.1 e.2 .bottom)⟩) ++
    (List.range' 2 (k.tree.order - 2)).filterMap (parentNote? g k) ++
    (g.upper.successors designated).toList.filterMap (designatedNote? g k)

/-- Writes a note down. -/
def Analysis.write (bound budget : Exact) (s : Analysis Exact) (x : Note) : Analysis Exact :=
  if x.inside then s.noteInside bound budget x.edge x.marginal
  else s.noteOutside bound budget x.edge x.marginal

theorem parentNote?_of_optional (hM : ¬ g.isMandatory v (k.parent v) = true) :
    parentNote? g k v =
      some ⟨(v, k.parent v), true, k.replacements.getD v .top - k.costs.cost v (k.parent v)⟩ :=
  if_neg hM

theorem designatedNote?_of_inside (hM : ¬ g.isMandatory designated v = true)
    (hT : k.tree.contains designated v = true) : designatedNote? g k v =
      some ⟨(designated, v), true, (designatedExtremes g k).2 - k.costs.cost designated v⟩ := by
  rw [designatedNote?, if_neg hM, if_pos hT]

theorem designatedNote?_of_outside (hM : ¬ g.isMandatory designated v = true)
    (hT : ¬ k.tree.contains designated v = true) : designatedNote? g k v =
      some ⟨(designated, v), false,
        inclusionCost (k.costs.cost designated v) (designatedExtremes g k).1⟩ := by
  rw [designatedNote?, if_neg hM, if_neg hT]

theorem mem_notes {x : Note} : x ∈ notes g k ↔
    (∃ e ∈ k.nonTreeEdges, ⟨e, false, inclusionCost (k.costs.cost e.1 e.2)
      (k.pathMaxima.entry e.1 e.2 .bottom)⟩ = x) ∨
    (∃ v, (2 ≤ v ∧ v < 2 + (k.tree.order - 2)) ∧ parentNote? g k v = some x) ∨
    ∃ v ∈ (g.upper.successors designated).toList, designatedNote? g k v = some x := by
  simp only [notes, List.mem_append, List.mem_map, List.mem_filterMap, List.mem_range'_1, or_assoc]

theorem analyseParentEdge_eq (g : GraphVar) (k : Kruskal Exact) (budget : Exact) :
    analyseParentEdge g k budget = fun s v =>
      match parentNote? g k v with
      | some x => s.write k.bound budget x
      | none => s := by
  funext s v
  by_cases hM : g.isMandatory v (k.parent v) = true
  · simp [analyseParentEdge, parentNote?, hM]
  · simp [analyseParentEdge, parentNote?, hM, Analysis.write]

theorem analyseDesignated_eq (g : GraphVar) (k : Kruskal Exact) (budget : Exact) :
    analyseDesignated g k budget (designatedExtremes g k) = fun s v =>
      match designatedNote? g k v with
      | some x => s.write k.bound budget x
      | none => s := by
  funext s v
  by_cases hM : g.isMandatory designated v = true
  · simp [analyseDesignated, designatedNote?, hM]
  · by_cases hT : k.tree.contains designated v = true
    · simp [analyseDesignated, designatedNote?, hM, hT, Analysis.write]
    · simp [analyseDesignated, designatedNote?, hM, hT, Analysis.write]

theorem analyseNonTree_eq (k : Kruskal Exact) (budget : Exact) :
    analyseNonTree k budget = fun s e => s.write k.bound budget ⟨e, false,
      inclusionCost (k.costs.cost e.1 e.2) (k.pathMaxima.entry e.1 e.2 .bottom)⟩ := by
  funext s e
  rw [Analysis.write, if_neg Bool.false_ne_true]
  rfl

theorem analyse_eq (g : GraphVar) (k : Kruskal Exact) (budget : Exact) :
    analyse g k budget = (notes g k).foldl (Analysis.write k.bound budget) k.analysis.clear := by
  rw [notes, List.foldl_append, List.foldl_append, List.foldl_map, List.foldl_filterMap,
    List.foldl_filterMap, analyse, analyseNonTree_eq, analyseParentEdge_eq, analyseDesignated_eq]
  congr 1
  · funext s v
    cases designatedNote? g k v <;> rfl
  · congr 1
    funext s v
    cases parentNote? g k v <;> rfl

theorem notes_correct (hg : g.IsSimple n) (h : Prepared n cost g k₀ k) {x : Note}
    (hx : x ∈ notes g k) : x.Correct n cost g k := by
  obtain ⟨e, he, rfl⟩ | ⟨v, hv, hx⟩ | ⟨v, hv, hx⟩ := mem_notes.mp hx
  · exact correct_nonTree hg h he
  · by_cases hM : g.isMandatory v (k.parent v) = true
    · rw [parentNote?, if_pos hM] at hx
      exact absurd hx (by simp)
    · rw [parentNote?_of_optional hM] at hx
      obtain rfl := Option.some.inj hx
      rw [h.computed.represents.sized.order_eq] at hv
      have hinner : v ∈ innerNodes n := mem_innerNodes.mpr ⟨by rw [designated]; omega, by omega⟩
      exact correct_parentEdge hg h hinner (by rw [root]; omega) (Bool.eq_false_iff.mpr hM)
  · have hpotential := (mem_successors hg).mp hv
    have hvn := (hg.lt_of_isPotential hpotential).2
    by_cases hM : g.isMandatory designated v = true
    · rw [designatedNote?, if_pos hM] at hx
      exact absurd hx (by simp)
    · have hM' := Bool.eq_false_iff.mpr hM
      have hiff := contains_designated h.computed hvn
      by_cases hT : k.tree.contains designated v = true
      · rw [designatedNote?_of_inside hM hT] at hx
        obtain rfl := Option.some.inj hx
        exact correct_designated_inside hg h.computed hpotential hM' (hiff.mp hT)
      · rw [designatedNote?_of_outside hM hT] at hx
        obtain rfl := Option.some.inj hx
        exact correct_designated_outside hg h.computed hpotential hM'
          fun hmem => hT (hiff.mpr hmem)

/-- Every edge that may be changed has a note. -/
theorem exists_note (hg : g.IsSimple n) (h : Prepared n cost g k₀ k) {a b : ℕ}
    (hpotential : g.isPotential a b = true) (hmandatory : g.isMandatory a b = false) :
    ∃ x ∈ notes g k, sym x.edge = s(a, b) := by
  have hpossible := hg.mem_possibleEdges.mpr hpotential
  have hnotM : ∀ x y, s(x, y) = s(a, b) → ¬ g.isMandatory x y = true := by
    intro x y heq hM
    have hmem := hg.mem_mandatoryEdges.mpr hM
    rw [heq] at hmem
    exact absurd (hmandatory.symm.trans (hg.mem_mandatoryEdges.mp hmem)) (by simp)
  by_cases hd : designated ∈ s(a, b)
  · obtain ⟨v, heq⟩ := exists_eq_of_mem hd
    have hv := (mem_successors hg).mpr (hg.mem_possibleEdges.mp (heq ▸ hpossible))
    have hM := hnotM designated v heq.symm
    by_cases hT : k.tree.contains designated v = true
    · exact ⟨_, mem_notes.mpr (.inr (.inr ⟨v, hv, designatedNote?_of_inside hM hT⟩)), heq.symm⟩
    · exact ⟨_, mem_notes.mpr (.inr (.inr ⟨v, hv, designatedNote?_of_outside hM hT⟩)), heq.symm⟩
  · by_cases hT : s(a, b) ∈ k.tree.edgeSet
    · obtain ⟨v, hv, hvr, heq⟩ := h.rooted.tree.exists_edge_eq (mem_innerEdges.mpr ⟨hT, hd⟩)
      have hM := hnotM v (k.parent v) heq
      have hrange : 2 ≤ v ∧ v < 2 + (k.tree.order - 2) := by
        obtain ⟨hv0, hvn⟩ := mem_innerNodes.mp hv
        rw [h.computed.represents.sized.order_eq]
        rw [designated] at hv0
        rw [root] at hvr
        omega
      exact ⟨_, mem_notes.mpr (.inr (.inl ⟨v, hrange, parentNote?_of_optional hM⟩)), heq⟩
    · obtain ⟨p, hp, heq⟩ := h.computed.exists_nonTree hg hpossible hd hT
      exact ⟨_, mem_notes.mpr (.inl ⟨p, hp, rfl⟩), heq⟩

theorem marginals_write (bound budget : Exact) (s : Analysis Exact) (x : Note) :
    (s.write bound budget x).marginals =
      s.marginals.putBoth x.edge.1 x.edge.2 x.marginal := by
  rw [Analysis.write]
  split <;> rfl

/-- An edge outside the one-tree is to be removed if including it exceeds the budget. -/
theorem mem_toRemove_write (bound budget : Exact) (s : Analysis Exact) (x : Note) (e : Edge) :
    e ∈ (s.write bound budget x).toRemove ↔ e ∈ s.toRemove ∨
      x.edge = e ∧ x.inside = false ∧ exceeds bound x.marginal budget = true := by
  rw [Analysis.write]
  cases hinside : x.inside
  · cases hexceeds : exceeds bound x.marginal budget
    · simp [Analysis.noteOutside, hexceeds]
    · simp [Analysis.noteOutside, hexceeds, eq_comm, or_comm]
  · simp [Analysis.noteInside]

/-- An edge of the one-tree is to be enforced if excluding it exceeds the budget. -/
theorem mem_toEnforce_write (bound budget : Exact) (s : Analysis Exact) (x : Note) (e : Edge) :
    e ∈ (s.write bound budget x).toEnforce ↔ e ∈ s.toEnforce ∨
      x.edge = e ∧ x.inside = true ∧ exceeds bound x.marginal budget = true := by
  rw [Analysis.write]
  cases hinside : x.inside
  · simp [Analysis.noteOutside]
  · cases hexceeds : exceeds bound x.marginal budget
    · simp [Analysis.noteInside, hexceeds]
    · simp [Analysis.noteInside, hexceeds, eq_comm, or_comm]

/-- What was written down last for an edge can be read, and the lists hold the notes that exceed
the budget. -/
theorem foldl_write (bound budget : Exact) (l : List Note) (s : Analysis Exact)
    (hs : s.marginals.Square n) (hl : ∀ x ∈ l, x.edge.1 < n ∧ x.edge.2 < n) :
    ∃ r, l.foldl (Analysis.write bound budget) s = r ∧ r.marginals.Square n ∧
      (∀ a b, (∃ x ∈ l, sym x.edge = s(a, b)) →
        ∃ x ∈ l, sym x.edge = s(a, b) ∧ r.marginals.entry a b .top = x.marginal) ∧
      (∀ e, e ∈ r.toRemove ↔ e ∈ s.toRemove ∨ ∃ x ∈ l, x.edge = e ∧ x.inside = false ∧
        exceeds bound x.marginal budget = true) ∧
      (∀ e, e ∈ r.toEnforce ↔ e ∈ s.toEnforce ∨ ∃ x ∈ l, x.edge = e ∧ x.inside = true ∧
        exceeds bound x.marginal budget = true) := by
  induction l using List.reverseRecOn with
  | nil => exact ⟨s, rfl, hs, by simp, by simp, by simp⟩
  | append_singleton l x ih =>
      obtain ⟨r, heq, hsquare, hentry, hremove, henforce⟩ :=
        ih fun y hy => hl y (List.mem_append_left _ hy)
      obtain ⟨ha, hb⟩ := hl x (by simp)
      refine ⟨r.write bound budget x, by rw [List.foldl_append, heq]; rfl, ?_, ?_, ?_, ?_⟩
      · rw [marginals_write]
        exact hsquare.putBoth _ _ _
      · rintro a b ⟨y, hy, hyab⟩
        rw [marginals_write, Table.entry_putBoth hsquare ha hb]
        by_cases hx : sym x.edge = s(a, b)
        · refine ⟨x, by simp, hx, if_pos ?_⟩
          obtain ⟨h1, h2⟩ | ⟨h1, h2⟩ := Sym2.eq_iff.mp hx
          · exact .inl ⟨h1.symm, h2.symm⟩
          · exact .inr ⟨h2.symm, h1.symm⟩
        · have hy' : y ∈ l := by
            obtain hy | hy := List.mem_append.mp hy
            · exact hy
            · exact absurd (List.mem_singleton.mp hy ▸ hyab) hx
          obtain ⟨z, hz, hzab, hread⟩ := hentry a b ⟨y, hy', hyab⟩
          refine ⟨z, List.mem_append_left _ hz, hzab, ?_⟩
          rw [if_neg, hread]
          rintro (⟨rfl, rfl⟩ | ⟨rfl, rfl⟩)
          · exact hx rfl
          · exact hx Sym2.eq_swap
      · intro e
        simp only [List.mem_append, List.mem_singleton, or_and_right, exists_or, exists_eq_left]
        rw [mem_toRemove_write, hremove, or_assoc]
      · intro e
        simp only [List.mem_append, List.mem_singleton, or_and_right, exists_or, exists_eq_left]
        rw [mem_toEnforce_write, henforce, or_assoc]

end Kruskal

end GraphInterval
