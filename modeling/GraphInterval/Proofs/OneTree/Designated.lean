import GraphInterval.Proofs.Attempt
import GraphInterval.Proofs.OneTree.Basic

/-!
# The edges of the designated node

The designated node gets its mandatory edges and, as long as it has fewer than
two, the cheapest of its other possible edges.  There is a conflict exactly if
no one-tree has all mandatory edges of the designated node and only possible
ones, which depends on no comparison of costs.  With exact numbers, no edge
that was passed over is cheaper than a chosen edge that is not mandatory.
-/

namespace GraphInterval

namespace OneTree

/-! ### Mandatory edges -/

/-- The mandatory edges of the designated node. -/
def outerMandatory (g : GraphVar) : Set (Sym2 ℕ) := { e | e ∈ g.mandatoryEdges ∧ designated ∈ e }

/-- The other mandatory edges, which have to be in the spanning tree. -/
def innerMandatory (g : GraphVar) : Set (Sym2 ℕ) := { e | e ∈ g.mandatoryEdges ∧ designated ∉ e }

/-- The mandatory edges that have to be in the spanning tree close no cycle. -/
def MandatoryAcyclic (g : GraphVar) : Prop :=
  ∀ F : Finset (Sym2 ℕ), (∀ e ∈ F, e ∈ innerMandatory g) → IsForest F

theorem mandatoryAcyclic_of_candidate {n : ℕ} {g : GraphVar} {U : Set (Sym2 ℕ)}
    {H : Finset (Sym2 ℕ)} (hH : Candidate (IsOneTree n) g.mandatoryEdges U H) :
    MandatoryAcyclic g := by
  intro F hF
  apply hH.base.inner.forest.mono
  intro e he
  exact mem_innerEdges.mpr ⟨hH.mandatory e (hF e he).1, (hF e he).2⟩

/-! ### The two cheapest nodes -/

section TwoCheapest

variable {α : Type} [Scalar α] {nodes : List ℕ} {best : Option ℕ × Option ℕ} {node : ℕ}

/-- The best two are different nodes among those seen so far, if there are two. -/
def AreSeen (nodes : List ℕ) : Option ℕ × Option ℕ → Prop
  | (none, second) => nodes = [] ∧ second = none
  | (some x, none) => nodes = [x]
  | (some x, some y) => x ∈ nodes ∧ y ∈ nodes ∧ x ≠ y

theorem AreSeen.considerNode (h : AreSeen nodes best) (hnew : node ∉ nodes) (cost : ℕ → α) :
    AreSeen (nodes ++ [node]) (OneTree.considerNode cost best node) := by
  obtain ⟨_ | first, _ | second⟩ := best
  · obtain ⟨rfl, -⟩ := h
    rfl
  · obtain ⟨-, h⟩ := h
    cases h
  · obtain rfl : nodes = [first] := h
    have hne : node ≠ first := by simpa using hnew
    rw [OneTree.considerNode]
    split
    · exact ⟨by simp, by simp, hne⟩
    · exact ⟨by simp, by simp, hne.symm⟩
  · obtain ⟨hx, hy, hxy⟩ := h
    have hne : node ≠ first := fun heq => hnew (heq ▸ hx)
    rw [OneTree.considerNode]
    split
    · exact ⟨by simp, by simp [hx], hne⟩
    · split
      · exact ⟨by simp [hx], by simp [hy], hxy⟩
      · exact ⟨by simp [hx], by simp, hne.symm⟩

theorem areSeen_foldl (cost : ℕ → α) (hnodup : nodes.Nodup) :
    AreSeen nodes (nodes.foldl (OneTree.considerNode cost) (none, none)) := by
  induction nodes using List.reverseRecOn with
  | nil => exact ⟨rfl, rfl⟩
  | append_singleton nodes node ih =>
      rw [List.foldl_append]
      have hsplit := List.nodup_append.mp hnodup
      exact (ih hsplit.1).considerNode (fun h => hsplit.2.2 node h node (by simp) rfl) cost

/-- The answer holds two nodes of the list, or fewer if there are no two. -/
theorem twoCheapest_spec (cost : ℕ → α) (hnodup : nodes.Nodup) :
    (twoCheapest cost nodes).Nodup ∧ (∀ x ∈ twoCheapest cost nodes, x ∈ nodes) ∧
      (twoCheapest cost nodes).length = min 2 nodes.length := by
  have hseen := areSeen_foldl cost hnodup
  rw [twoCheapest]
  generalize nodes.foldl (OneTree.considerNode cost) (none, none) = best at hseen
  obtain ⟨_ | first, _ | second⟩ := best
  · obtain ⟨rfl, -⟩ := hseen
    simp
  · obtain ⟨-, h⟩ := hseen
    cases h
  · obtain rfl : nodes = [first] := hseen
    simp
  · obtain ⟨hx, hy, hxy⟩ := hseen
    have hlength : 2 ≤ nodes.length := by
      have hsub : [first, second] ⊆ nodes := by simp [hx, hy]
      have hpair : [first, second].Nodup := by simp [hxy]
      exact (hpair.subperm hsub).length_le
    exact ⟨by simp [hxy], by simp [hx, hy], by simp [Nat.min_eq_left hlength]⟩

/-- No other node seen so far is cheaper than the best two. -/
def AreBest (cost : ℕ → Exact) (nodes : List ℕ) : Option ℕ × Option ℕ → Prop
  | (some x, some y) => cost x ≤ cost y ∧ ∀ z ∈ nodes, z ≠ x → cost y ≤ cost z
  | (_, _) => True

theorem AreBest.considerNode {cost : ℕ → Exact} (h : AreBest cost nodes best)
    (hseen : AreSeen nodes best) :
    AreBest cost (nodes ++ [node]) (OneTree.considerNode cost best node) := by
  have hle : ∀ {x y : Exact}, ¬ x < y → y ≤ x := fun h => Exact.le_iff_not_lt.mpr h
  obtain ⟨_ | first, _ | second⟩ := best
  · trivial
  · cases hseen.2
  · obtain rfl : nodes = [first] := hseen
    rw [OneTree.considerNode]
    split
    next hless =>
      refine ⟨Exact.le_of_lt hless, fun z hz hzn => ?_⟩
      obtain rfl : z = first := by simpa [hzn] using hz
      exact Exact.le_refl _
    next hless =>
      refine ⟨hle hless, fun z hz hzn => ?_⟩
      obtain rfl : z = node := by simpa [hzn] using hz
      exact Exact.le_refl _
  · obtain ⟨hcost, hbest⟩ := h
    rw [OneTree.considerNode]
    split
    next hless =>
      refine ⟨Exact.le_of_lt hless, fun z hz hzn => ?_⟩
      have hz' : z ∈ nodes := by simpa [hzn] using hz
      by_cases hzx : z = first
      · exact hzx ▸ Exact.le_refl _
      · exact Exact.le_trans hcost (hbest z hz' hzx)
    next hless =>
      split
      next hkeep =>
        refine ⟨hcost, fun z hz hzx => ?_⟩
        obtain hz | hz := List.mem_append.mp hz
        · exact hbest z hz hzx
        · exact List.mem_singleton.mp hz ▸ hkeep
      next hkeep =>
        have hbetter : cost node ≤ cost second := (Exact.le_total _ _).resolve_left hkeep
        refine ⟨hle hless, fun z hz hzx => ?_⟩
        obtain hz | hz := List.mem_append.mp hz
        · exact Exact.le_trans hbetter (hbest z hz hzx)
        · exact List.mem_singleton.mp hz ▸ Exact.le_refl _

theorem areBest_foldl (cost : ℕ → Exact) (hnodup : nodes.Nodup) :
    AreBest cost nodes (nodes.foldl (OneTree.considerNode cost) (none, none)) := by
  induction nodes using List.reverseRecOn with
  | nil => trivial
  | append_singleton nodes node ih =>
      rw [List.foldl_append]
      have hnodup' := (List.nodup_append.mp hnodup).1
      exact (ih hnodup').considerNode (areSeen_foldl cost hnodup')

/-- Any number of the first nodes of the answer are cheapest ones. -/
theorem le_of_mem_twoCheapest (cost : ℕ → Exact) (hnodup : nodes.Nodup) {k x z : ℕ}
    (hx : x ∈ (twoCheapest cost nodes).take k) (hz : z ∈ nodes)
    (hzk : z ∉ (twoCheapest cost nodes).take k) : cost x ≤ cost z := by
  have hseen := areSeen_foldl cost hnodup
  have hbest := areBest_foldl cost hnodup
  rw [twoCheapest] at hx hzk
  generalize nodes.foldl (OneTree.considerNode cost) (none, none) = best at hseen hbest hx hzk
  obtain ⟨_ | first, _ | second⟩ := best
  · obtain ⟨rfl, -⟩ := hseen
    cases hz
  · obtain ⟨-, h⟩ := hseen
    cases h
  · obtain rfl : nodes = [first] := hseen
    have hx' : x = first := by simpa using List.mem_of_mem_take hx
    have hz' : z = first := by simpa using hz
    exact hx' ▸ hz' ▸ Exact.le_refl _
  · obtain ⟨hcost, hothers⟩ := hbest
    match k with
    | 0 => exact absurd hx (by simp)
    | 1 =>
        have hx' : x = first := by simpa using hx
        have hz' : z ≠ first := by simpa using hzk
        exact hx' ▸ Exact.le_trans hcost (hothers z hz hz')
    | k + 2 =>
        obtain ⟨hzf, hzs⟩ : z ≠ first ∧ z ≠ second := by simpa using hzk
        obtain rfl | rfl : x = first ∨ x = second := by simpa using hx
        · exact Exact.le_trans hcost (hothers z hz hzf)
        · exact hothers z hz hzf

end TwoCheapest

/-! ### Joining nodes -/

section Join

variable {α : Type} [Scalar α] {n : ℕ} {costs : Table α} {t : OneTree α}

/-- The edges between the designated node and some nodes. -/
def spokes (nodes : List ℕ) : Finset (Sym2 ℕ) := (nodes.map fun v => s(designated, v)).toFinset

theorem mem_spokes {nodes : List ℕ} {v : ℕ} : s(designated, v) ∈ spokes nodes ↔ v ∈ nodes := by
  rw [spokes, List.mem_toFinset, List.mem_map]
  constructor
  · rintro ⟨w, hw, heq⟩
    exact Sym2.congr_right.mp heq ▸ hw
  · intro hv
    exact ⟨v, hv, rfl⟩

theorem card_spokes {nodes : List ℕ} (hnodup : nodes.Nodup) :
    (spokes nodes).card = nodes.length := by
  rw [spokes, List.toFinset_card_of_nodup, List.length_map]
  exact hnodup.map fun v w heq => Sym2.congr_right.mp heq

theorem Recorded.join (ht : t.Recorded n costs) {v : ℕ} (hv : v ∈ innerNodes n)
    (hnew : s(designated, v) ∉ t.edgeSet) : (t.join costs v).Recorded n costs := by
  obtain ⟨hne, hlt⟩ := mem_innerNodes.mp hv
  have hpos : designated < n := Nat.pos_of_ne_zero (by omega)
  exact ht.addEdge hpos hlt hne.symm hnew

theorem recorded_foldl_join {nodes : List ℕ} (ht : t.Recorded n costs) (hnodup : nodes.Nodup)
    (hinner : ∀ v ∈ nodes, v ∈ innerNodes n)
    (hnew : ∀ v ∈ nodes, s(designated, v) ∉ t.edgeSet) :
    (nodes.foldl (join costs) t).Recorded n costs ∧
      (nodes.foldl (join costs) t).edgeSet = t.edgeSet ∪ spokes nodes := by
  induction nodes generalizing t with
  | nil => exact ⟨ht, by simp [spokes]⟩
  | cons v nodes ih =>
      obtain ⟨hvn, hnodup⟩ := List.nodup_cons.mp hnodup
      have hedges : (t.join costs v).edgeSet = insert s(designated, v) t.edgeSet :=
        edgeSet_addEdge _ _ _ _
      have hjoin := ht.join (hinner v List.mem_cons_self) (hnew v List.mem_cons_self)
      obtain ⟨hrest, hset⟩ := ih hjoin hnodup
        (fun w hw => hinner w (List.mem_cons_of_mem v hw)) fun w hw => by
          rw [hedges, Finset.mem_insert, Sym2.congr_right]
          rintro (rfl | h)
          · exact hvn hw
          · exact hnew w (List.mem_cons_of_mem v hw) h
      refine ⟨hrest, ?_⟩
      rw [List.foldl_cons, hset, hedges]
      simp [spokes, Finset.insert_union]

theorem degree_join (costs : Table α) (ht : t.Sized n) {v : ℕ} (hv : v ∈ innerNodes n) :
    (t.join costs v).degree designated = t.degree designated + 1 := by
  obtain ⟨hne, hlt⟩ := mem_innerNodes.mp hv
  have hpos : designated < n := Nat.pos_of_ne_zero (by omega)
  rw [join, degree_addEdge t _ (ht.degrees_size_eq ▸ hpos) (ht.degrees_size_eq ▸ hlt) hne.symm]
  simp

/-- As many nodes are joined as the designated node lacks edges. -/
theorem foldl_joinIfNeeded (costs : Table α) {nodes : List ℕ} (ht : t.Sized n)
    (hinner : ∀ v ∈ nodes.take (2 - t.degree designated), v ∈ innerNodes n)
    (hdegree : t.degree designated ≤ 2) :
    nodes.foldl (joinIfNeeded costs) t =
      (nodes.take (2 - t.degree designated)).foldl (join costs) t := by
  induction nodes generalizing t with
  | nil => simp
  | cons v nodes ih =>
      rw [List.foldl_cons, joinIfNeeded]
      by_cases hfull : t.degree designated = 2
      · have hnone : ∀ l : List ℕ, l.take (2 - t.degree designated) = [] := by
          intro l
          rw [hfull, Nat.sub_self, List.take_zero]
        rw [if_pos hfull, ih ht (by simp [hnone]) hdegree, hnone, hnone]
      · obtain ⟨k, hk⟩ : ∃ k, 2 - t.degree designated = k + 1 := ⟨1 - t.degree designated, by omega⟩
        rw [hk, List.take_succ_cons, List.forall_mem_cons] at hinner
        have hdegree' := degree_join costs ht hinner.1
        have hk' : 2 - (t.join costs v).degree designated = k := by omega
        have hjoin : (t.join costs v).Sized n := ht.addEdge _ _ _
        rw [if_neg hfull, ih hjoin (hk'.symm ▸ hinner.2) (by omega), hk, hk', List.take_succ_cons,
          List.foldl_cons]

end Join

/-! ### Attaching the designated node -/

section Attach

variable {α : Type} [Scalar α] {n : ℕ} {costs : Table α} {g : GraphVar} {t t' : OneTree α}

/-- The mandatory edges of the designated node are edges of a one-tree, which has
only possible edges at that node. -/
structure OuterBetween (g : GraphVar) (H : Finset (Sym2 ℕ)) : Prop where
  mandatory : ∀ v, g.isMandatory designated v = true → s(designated, v) ∈ H
  possible : ∀ v, s(designated, v) ∈ H → g.isPotential designated v = true

theorem outerBetween_of_candidate (hg : g.IsSimple n) {B : Finset (Sym2 ℕ) → Prop}
    {H : Finset (Sym2 ℕ)} (hH : Candidate B (outerMandatory g) g.possibleEdges H) :
    OuterBetween g H :=
  ⟨fun _ hv => hH.mandatory _ ⟨hg.mem_mandatoryEdges.mpr hv, Sym2.mem_mk_left _ _⟩,
    fun _ hv => hg.mem_possibleEdges.mp (hH.possible _ hv)⟩

theorem mem_inner_of_isPotential (hg : g.IsSimple n) {v : ℕ}
    (hv : g.isPotential designated v = true) : v ∈ innerNodes n :=
  mem_innerNodes.mpr ⟨(hg.ne_of_isPotential hv).symm, (hg.lt_of_isPotential hv).2⟩

theorem mem_mandatoryNodes (hg : g.Valid) {v : ℕ} :
    v ∈ (g.lower.successors designated).toList ↔ g.isMandatory designated v = true :=
  Graph.mem_successors hg.lower

theorem mem_optionalNodes (hg : g.Valid) {v : ℕ} :
    v ∈ optionalNodes g ↔
      g.isPotential designated v = true ∧ g.isMandatory designated v = false := by
  rw [optionalNodes, List.mem_filter, Graph.mem_successors hg.upper, Bool.not_eq_true']
  exact Iff.rfl

theorem nodup_mandatoryNodes (hg : g.Valid) : (g.lower.successors designated).toList.Nodup :=
  SparseSet.nodup_toList (hg.lower.successors designated)

theorem nodup_optionalNodes (hg : g.Valid) : (optionalNodes g).Nodup :=
  (SparseSet.nodup_toList (hg.upper.successors designated)).filter _

/-- The nodes that get joined: the mandatory ones and the cheapest others. -/
def chosenNodes (costs : Table α) (g : GraphVar) : List ℕ :=
  (g.lower.successors designated).toList ++
    (twoCheapest (costs.cost designated) (optionalNodes g)).take
      (2 - (g.lower.successors designated).toList.length)

theorem mem_chosenNodes_isPotential (hg : g.Valid) {v : ℕ} (hv : v ∈ chosenNodes costs g) :
    g.isPotential designated v = true := by
  obtain hv | hv := List.mem_append.mp hv
  · exact hg.isPotential ((mem_mandatoryNodes hg).mp hv)
  · have hopt := (twoCheapest_spec _ (nodup_optionalNodes hg)).2.1 v (List.mem_of_mem_take hv)
    exact ((mem_optionalNodes hg).mp hopt).1

/-- No loop is possible in a graph without loops, so none is chosen. -/
theorem notMem_chosenNodes (hg : g.IsSimple n) : designated ∉ chosenNodes costs g := fun h =>
  hg.ne_of_isPotential (mem_chosenNodes_isPotential hg.valid h) rfl

theorem mem_inner_of_chosen (hg : g.IsUndirected n) (hloop : designated ∉ chosenNodes costs g)
    {v : ℕ} (hv : v ∈ chosenNodes costs g) : v ∈ innerNodes n :=
  mem_innerNodes.mpr ⟨fun h => hloop (h ▸ hv),
    (hg.lt_of_isPotential (mem_chosenNodes_isPotential hg.valid hv)).2⟩

theorem nodup_chosenNodes (hg : g.Valid) : (chosenNodes costs g).Nodup := by
  have hspec := twoCheapest_spec (costs.cost designated) (nodup_optionalNodes hg)
  apply List.nodup_append.mpr
  refine ⟨nodup_mandatoryNodes hg, hspec.1.sublist (List.take_sublist _ _), ?_⟩
  rintro v hv w hw rfl
  have hopt := (mem_optionalNodes hg).mp (hspec.2.1 v (List.mem_of_mem_take hw))
  exact absurd (hopt.2.symm.trans ((mem_mandatoryNodes hg).mp hv)) (by simp)

theorem outerEdges_union_spokes {F : Finset (Sym2 ℕ)} (hF : outerEdges F = ∅) (nodes : List ℕ) :
    outerEdges (F ∪ spokes nodes) = spokes nodes := by
  have hspokes : outerEdges (spokes nodes) = spokes nodes := by
    apply Finset.filter_true_of_mem
    intro e he
    obtain ⟨v, -, rfl⟩ := List.mem_map.mp (List.mem_toFinset.mp he)
    exact Sym2.mem_mk_left _ _
  rw [outerEdges, Finset.filter_union]
  change outerEdges F ∪ outerEdges (spokes nodes) = _
  rw [hF, hspokes, Finset.empty_union]

theorem innerEdges_union_spokes {F : Finset (Sym2 ℕ)} (hF : outerEdges F = ∅) (nodes : List ℕ) :
    innerEdges (F ∪ spokes nodes) = F := by
  ext e
  have hnot : e ∈ F → designated ∉ e := fun he hd =>
    Finset.notMem_empty e (hF ▸ mem_outerEdges.mpr ⟨he, hd⟩)
  rw [mem_innerEdges, Finset.mem_union]
  constructor
  · rintro ⟨he | he, hd⟩
    · exact he
    · obtain ⟨v, -, rfl⟩ := List.mem_map.mp (List.mem_toFinset.mp he)
      exact absurd (Sym2.mem_mk_left _ _) hd
  · exact fun he => ⟨.inl he, hnot he⟩

theorem notMem_of_outerEdges {F : Finset (Sym2 ℕ)} (hF : outerEdges F = ∅) (v : ℕ) :
    s(designated, v) ∉ F := fun h =>
  Finset.notMem_empty _ (hF ▸ mem_outerEdges.mpr ⟨h, Sym2.mem_mk_left _ _⟩)

/-- Joining inner nodes gives the designated node one edge for each of them. -/
theorem degree_foldl_join (hn : 0 < n) {nodes : List ℕ} (ht : t.Recorded n costs)
    (houter : outerEdges t.edgeSet = ∅) (hnodup : nodes.Nodup)
    (hinner : ∀ v ∈ nodes, v ∈ innerNodes n) :
    (nodes.foldl (join costs) t).degree designated = nodes.length := by
  obtain ⟨hjoined, hset⟩ := recorded_foldl_join ht hnodup hinner
    fun v _ => notMem_of_outerEdges houter v
  rw [hjoined.degree_eq designated hn, hset]
  change (outerEdges _).card = _
  rw [outerEdges_union_spokes houter, card_spokes hnodup]

theorem joinDesignated_eq (hn : 0 < n) (hg : g.IsUndirected n)
    (hloop : designated ∉ chosenNodes costs g) (ht : t.Recorded n costs)
    (houter : outerEdges t.edgeSet = ∅)
    (hfew : (g.lower.successors designated).toList.length ≤ 2) :
    t.joinDesignated costs g = (chosenNodes costs g).foldl (join costs) t := by
  have hmandatory : ∀ v ∈ (g.lower.successors designated).toList, v ∈ innerNodes n := fun v hv =>
    mem_inner_of_chosen hg hloop (List.mem_append_left _ hv)
  have hdegree := degree_foldl_join hn ht houter (nodup_mandatoryNodes hg.valid) hmandatory
  have hjoined := recorded_foldl_join ht (nodup_mandatoryNodes hg.valid) hmandatory
    fun v _ => notMem_of_outerEdges houter v
  rw [joinDesignated, foldl_joinIfNeeded costs hjoined.1.sized, hdegree, chosenNodes,
    List.foldl_append]
  · intro v hv
    rw [hdegree] at hv
    exact mem_inner_of_chosen hg hloop (List.mem_append_right _ hv)
  · rw [hdegree]
    exact hfew

omit [Scalar α] in
theorem knowsDesignated_eq (hn : 0 < n) (hcosts : costs.Square n) (hg : g.IsUndirected n) :
    knowsDesignated costs g = true := by
  rw [knowsDesignated, List.all_eq_true]
  intro v hv
  apply hcosts.covers hn
  obtain hv | hv := List.mem_append.mp hv
  · exact (hg.lt_of_isPotential (hg.valid.isPotential ((mem_mandatoryNodes hg.valid).mp hv))).2
  · exact (hg.lt_of_isPotential ((mem_optionalNodes hg.valid).mp hv).1).2

/-- A one-tree shows that there are at most two mandatory and at least two
possible edges at the designated node. -/
theorem IsOneTree.length_nodes (hg : g.IsSimple n) {H : Finset (Sym2 ℕ)} (hH : IsOneTree n H)
    (hbetween : OuterBetween g H) :
    (g.lower.successors designated).toList.length ≤ 2 ∧
      2 ≤ (g.lower.successors designated).toList.length + (optionalNodes g).length := by
  constructor
  · rw [← card_spokes (nodup_mandatoryNodes hg.valid), ← hH.two]
    apply Finset.card_le_card
    intro e he
    obtain ⟨v, hv, rfl⟩ := List.mem_map.mp (List.mem_toFinset.mp he)
    exact mem_outerEdges.mpr ⟨hbetween.mandatory v ((mem_mandatoryNodes hg.valid).mp hv),
      Sym2.mem_mk_left _ _⟩
  · rw [← List.length_append, ← hH.two]
    calc (outerEdges H).card
        ≤ (spokes ((g.lower.successors designated).toList ++ optionalNodes g)).card := by
          apply Finset.card_le_card
          intro e he
          obtain ⟨heH, hd⟩ := mem_outerEdges.mp he
          obtain ⟨v, rfl⟩ := exists_eq_of_mem hd
          rw [mem_spokes, List.mem_append, mem_mandatoryNodes hg.valid, mem_optionalNodes hg.valid]
          have hv := hbetween.possible v heH
          cases hM : g.isMandatory designated v with
          | true => exact .inl rfl
          | false => exact .inr ⟨hv, rfl⟩
      _ ≤ ((g.lower.successors designated).toList ++ optionalNodes g).length := by
          rw [spokes]
          exact (List.toFinset_card_le _).trans (List.length_map _).le

/-- The designated node was attached by two edges. -/
structure Attached (n : ℕ) (costs : Table α) (g : GraphVar) (t t' : OneTree α) : Prop where
  recorded : t'.Recorded n costs
  inner_eq : innerEdges t'.edgeSet = t.edgeSet
  two : (outerEdges t'.edgeSet).card = 2
  mem_iff : ∀ v, s(designated, v) ∈ t'.edgeSet ↔ v ∈ chosenNodes costs g
  size_eq : t'.edges.size = t.edges.size + 2

theorem attached_of_chosen (hg : g.IsUndirected n) (hloop : designated ∉ chosenNodes costs g)
    (ht : t.Recorded n costs) (houter : outerEdges t.edgeSet = ∅)
    (htwo : (chosenNodes costs g).length = 2) :
    Attached n costs g t ((chosenNodes costs g).foldl (join costs) t) := by
  have hnodup : (chosenNodes costs g).Nodup := nodup_chosenNodes hg.valid
  obtain ⟨hjoined, hset⟩ := recorded_foldl_join ht hnodup
    (fun v hv => mem_inner_of_chosen hg hloop hv) fun v _ => notMem_of_outerEdges houter v
  refine ⟨hjoined, ?_, ?_, fun v => ?_, ?_⟩
  · rw [hset, innerEdges_union_spokes houter]
  · rw [hset, outerEdges_union_spokes houter, card_spokes hnodup, htwo]
  · rw [hset, Finset.mem_union, mem_spokes, or_iff_right (notMem_of_outerEdges houter v)]
  · rw [← hjoined.card_edgeSet, ← ht.card_edgeSet, hset, Finset.card_union_of_disjoint,
      card_spokes hnodup, htwo]
    rw [Finset.disjoint_left]
    intro e he hspoke
    obtain ⟨v, -, rfl⟩ := List.mem_map.mp (List.mem_toFinset.mp hspoke)
    exact notMem_of_outerEdges houter v he

theorem Attached.mem_inner_iff (h : Attached n costs g t t') {e : Sym2 ℕ} (he : designated ∉ e) :
    e ∈ t'.edgeSet ↔ e ∈ t.edgeSet := by
  rw [← h.inner_eq, mem_innerEdges, and_iff_left he]

theorem Attached.between (hg : g.IsSimple n) (h : Attached n costs g t t') :
    OuterBetween g t'.edgeSet := by
  refine ⟨fun v hv => ?_, fun v hv => ?_⟩
  · rw [h.mem_iff]
    exact List.mem_append_left _ ((mem_mandatoryNodes hg.valid).mpr hv)
  · exact mem_chosenNodes_isPotential hg.valid ((h.mem_iff v).mp hv)

theorem Attached.isOneTree (htree : IsSpanningTree (innerNodes n) t.edgeSet)
    (h : Attached n costs g t t') : IsOneTree n t'.edgeSet := by
  refine ⟨h.inner_eq.symm ▸ htree, h.two, fun v hv => ?_⟩
  obtain ⟨e, he, heq⟩ := mem_edgeSet.mp hv
  obtain ⟨ha, hb, hne⟩ := h.recorded.inside e he
  rw [mem_innerNodes]
  obtain ⟨h1, h2⟩ | ⟨h1, h2⟩ := Sym2.eq_iff.mp heq
  · exact ⟨fun hv => hne (by rw [h1, h2, hv]), h2 ▸ hb⟩
  · exact ⟨fun hv => hne (by rw [h1, h2, hv]), h1 ▸ ha⟩

/-- A spanning tree of possible edges with those of the designated node is a one-tree. -/
theorem Attached.candidate (hg : g.IsSimple n) (htree : IsSpanningTree (innerNodes n) t.edgeSet)
    (hpossible : ∀ e ∈ t.edgeSet, e ∈ g.possibleEdges) (h : Attached n costs g t t') :
    Candidate (IsOneTree n) (outerMandatory g) g.possibleEdges t'.edgeSet := by
  have hbetween := h.between hg
  refine ⟨h.isOneTree htree, fun e he => ?_, fun e he => ?_⟩
  · obtain ⟨v, rfl⟩ := exists_eq_of_mem he.2
    exact hbetween.mandatory v (hg.mem_mandatoryEdges.mp he.1)
  · by_cases hd : designated ∈ e
    · obtain ⟨v, rfl⟩ := exists_eq_of_mem hd
      exact hg.mem_possibleEdges.mpr (hbetween.possible v he)
    · exact hpossible e ((h.mem_inner_iff hd).mp he)

theorem length_chosenNodes (costs : Table α) (hg : g.Valid)
    (hfew : (g.lower.successors designated).toList.length ≤ 2) :
    (chosenNodes costs g).length = min 2
      ((g.lower.successors designated).toList.length + (optionalNodes g).length) := by
  have hspec := twoCheapest_spec (costs.cost designated) (nodup_optionalNodes hg)
  rw [chosenNodes, List.length_append, List.length_take, hspec.2.2]
  omega

/-- Unless a loop is chosen, the designated node is attached by two edges, or it has more than two
mandatory or less than two possible ones. -/
theorem attachDesignated_counts (hn : 0 < n) (hcosts : costs.Square n) (hg : g.IsUndirected n)
    (hloop : designated ∉ chosenNodes costs g) (ht : t.Recorded n costs)
    (houter : outerEdges t.edgeSet = ∅) :
    (attachDesignated costs g).wp (fun _ t' => Attached n costs g t t')
      (fun failure _ => failure = .conflict detector ∧
        (2 < (g.lower.successors designated).toList.length ∨
          (g.lower.successors designated).toList.length + (optionalNodes g).length < 2)) t := by
  have horder : g.order ≠ 0 := by
    rw [hg.order_eq]
    omega
  have hsize := SparseSet.length_toList (hg.valid.lower.successors designated)
  rw [Attempt.wp, attachDesignated, if_neg horder, ← hsize]
  by_cases hmany : 2 < (g.lower.successors designated).toList.length
  · rw [if_pos hmany]
    exact ⟨rfl, .inl hmany⟩
  have hfew := Nat.le_of_not_lt hmany
  have hnodup : (chosenNodes costs g).Nodup := nodup_chosenNodes hg.valid
  have hinner : ∀ v ∈ chosenNodes costs g, v ∈ innerNodes n := fun v hv =>
    mem_inner_of_chosen hg hloop hv
  have hjoined := recorded_foldl_join ht hnodup hinner fun v _ => notMem_of_outerEdges houter v
  have hdegree := degree_foldl_join hn ht houter hnodup hinner
  have hlength := length_chosenNodes costs hg.valid hfew
  rw [if_neg hmany, joinDesignated_eq hn hg hloop ht houter hfew]
  simp only [knowsDesignated_eq hn hcosts hg, hjoined.1.isClosed, hdegree]
  by_cases hlack : (chosenNodes costs g).length < 2
  · simp only [Bool.and_self, Bool.not_true, Bool.false_eq_true, if_false, if_pos hlack]
    exact ⟨trivial, .inr (by omega)⟩
  · simp only [Bool.and_self, Bool.not_true, Bool.false_eq_true, if_false, if_neg hlack]
    apply attached_of_chosen hg hloop ht houter
    omega

/-- The designated node is attached by two edges, unless there is no way. -/
theorem attachDesignated_wp (hn : 0 < n) (hcosts : costs.Square n) (hg : g.IsSimple n)
    (ht : t.Recorded n costs) (houter : outerEdges t.edgeSet = ∅) :
    (attachDesignated costs g).wp (fun _ t' => Attached n costs g t t')
      (fun failure _ => failure = .conflict detector ∧
        ∀ H, ¬ Candidate (IsOneTree n) (outerMandatory g) g.possibleEdges H) t := by
  apply Attempt.wp_mono (attachDesignated_counts hn hcosts hg.isUndirected
    (notMem_chosenNodes hg) ht houter)
  · exact fun _ _ h => h
  · rintro failure _ ⟨hfailure, hcounts⟩
    refine ⟨hfailure, fun H hH => ?_⟩
    have hnodes := IsOneTree.length_nodes hg hH.base (outerBetween_of_candidate hg hH)
    omega

end Attach

/-- With exact numbers, no edge that was left out is cheaper than one that was added. -/
theorem Attached.cheapest {n : ℕ} {cost : Sym2 ℕ → ℚ} {costs : Table Exact} {g : GraphVar}
    {t t' : OneTree Exact} (hcosts : costs.Charges n cost) (hg : g.IsSimple n)
    (h : Attached n costs g t t') {v w : ℕ} (hv : g.isPotential designated v = true)
    (hvt : s(designated, v) ∉ t'.edgeSet) (hwt : s(designated, w) ∈ t'.edgeSet)
    (hw : g.isMandatory designated w = false) :
    cost s(designated, w) ≤ cost s(designated, v) := by
  rw [h.mem_iff] at hvt hwt
  obtain ⟨hvM, hvR⟩ := not_or.mp (mt List.mem_append.mpr hvt)
  rw [mem_mandatoryNodes hg.valid] at hvM
  have hwR := (List.mem_append.mp hwt).resolve_left fun h =>
    absurd (hw.symm.trans ((mem_mandatoryNodes hg.valid).mp h)) (by simp)
  have hle := le_of_mem_twoCheapest _ (nodup_optionalNodes hg.valid) hwR
    ((mem_optionalNodes hg.valid).mpr ⟨hv, by simpa using hvM⟩) hvR
  obtain ⟨hn, hvn⟩ := hg.lt_of_isPotential hv
  have hwn := (hg.lt_of_isPotential (mem_chosenNodes_isPotential hg.valid hwt)).2
  rwa [hcosts.cost_eq designated hn w hwn, hcosts.cost_eq designated hn v hvn,
    Exact.number_le_number] at hle

end OneTree

end GraphInterval
