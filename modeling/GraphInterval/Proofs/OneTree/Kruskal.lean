import GraphInterval.OneTree.Kruskal
import GraphInterval.Proofs.OneTree.Designated
import GraphInterval.Proofs.Partition

/-!
# The one-tree selected edge by edge

The edges taken so far are a forest whose components are the classes of the
partition.  There is a conflict exactly if no one-tree has all mandatory and
only possible edges, in whatever order the optional edges are considered.  An
edge that was passed over comes after every optional edge of the tree that it
could replace; with exact numbers it is at least as expensive, which makes the
one-tree a cheapest one.
-/

namespace GraphInterval

namespace Kruskal

open OneTree

variable {α : Type} {n : ℕ} {costs : Table α} {g : GraphVar}

/-! ### The sizes of the tables -/

/-- All tables are made for graphs of one order. -/
structure Sized (n : ℕ) (k : Kruskal α) : Prop where
  tree : k.tree.Sized n
  sets : k.sets.size = n
  costs : k.costs.Square n
  neighbours : k.neighbours.size = n
  parents : k.parents.size = n
  depths : k.depths.size = n
  pathMaxima : k.pathMaxima.Square n
  replacements : k.replacements.size = n
  jumps : k.jumps.size = n
  marginals : k.marginals.Square n

namespace Sized

variable {k : Kruskal α}

theorem withTree (hk : k.Sized n) {t : OneTree α} (ht : t.Sized n) :
    Sized n { k with tree := t } :=
  ⟨ht, hk.sets, hk.costs, hk.neighbours, hk.parents, hk.depths, hk.pathMaxima, hk.replacements,
    hk.jumps, hk.marginals⟩

theorem withSets (hk : k.Sized n) {sets : Partition} (hsets : sets.size = n) :
    Sized n { k with sets := sets } :=
  ⟨hk.tree, hsets, hk.costs, hk.neighbours, hk.parents, hk.depths, hk.pathMaxima, hk.replacements,
    hk.jumps, hk.marginals⟩

/-- The tables of the tree rooted at node 1. -/
theorem withRooting (hk : k.Sized n) {neighbours : Array (List ℕ)} {parents depths : Array ℕ}
    (hneighbours : neighbours.size = n) (hparents : parents.size = n) (hdepths : depths.size = n) :
    Sized n { k with neighbours := neighbours, parents := parents, depths := depths } :=
  ⟨hk.tree, hk.sets, hk.costs, hneighbours, hparents, hdepths, hk.pathMaxima, hk.replacements,
    hk.jumps, hk.marginals⟩

theorem withPathMaxima (hk : k.Sized n) {maxima : Table α} (hmaxima : maxima.Square n) :
    Sized n { k with pathMaxima := maxima } :=
  ⟨hk.tree, hk.sets, hk.costs, hk.neighbours, hk.parents, hk.depths, hmaxima, hk.replacements,
    hk.jumps, hk.marginals⟩

theorem withReplacements (hk : k.Sized n) {replacements : Array α}
    (hreplacements : replacements.size = n) : Sized n { k with replacements := replacements } :=
  ⟨hk.tree, hk.sets, hk.costs, hk.neighbours, hk.parents, hk.depths, hk.pathMaxima, hreplacements,
    hk.jumps, hk.marginals⟩

theorem withJumps (hk : k.Sized n) {jumps : Array ℕ} (hjumps : jumps.size = n) :
    Sized n { k with jumps := jumps } :=
  ⟨hk.tree, hk.sets, hk.costs, hk.neighbours, hk.parents, hk.depths, hk.pathMaxima,
    hk.replacements, hjumps, hk.marginals⟩

theorem withStack (hk : k.Sized n) (stack : List ℕ) : Sized n { k with stack := stack } :=
  ⟨hk.tree, hk.sets, hk.costs, hk.neighbours, hk.parents, hk.depths, hk.pathMaxima,
    hk.replacements, hk.jumps, hk.marginals⟩

theorem withAnalysis (hk : k.Sized n) {analysis : Analysis α}
    (hanalysis : analysis.marginals.Square n) : Sized n { k with analysis := analysis } :=
  ⟨hk.tree, hk.sets, hk.costs, hk.neighbours, hk.parents, hk.depths, hk.pathMaxima,
    hk.replacements, hk.jumps, hanalysis⟩

end Sized

/-! ### Considering edges -/

/-- The edge without its order. -/
def sym (e : Edge) : Sym2 ℕ := s(e.1, e.2)

theorem mem_pairs {a b : ℕ} : (a, b) ∈ pairs n ↔ a ≠ designated ∧ a < b ∧ b < n := by
  simp only [pairs, List.mem_flatMap, List.mem_map, List.mem_range'_1, Prod.mk.injEq, designated]
  constructor
  · rintro ⟨x, hx, y, hy, rfl, rfl⟩
    omega
  · rintro ⟨ha, hab, hb⟩
    exact ⟨a, by omega, b, by omega, rfl, rfl⟩

theorem nodup_pairs (n : ℕ) : (pairs n).Nodup := by
  rw [pairs, List.nodup_flatMap]
  constructor
  · intro a _
    exact List.Nodup.map (fun x y h => (Prod.mk.inj h).2) List.nodup_range'
  · apply List.Pairwise.imp _ List.nodup_range'
    intro a b hab
    rw [Function.onFun, List.disjoint_left]
    intro e he he'
    obtain ⟨x, -, rfl⟩ := List.mem_map.mp he
    obtain ⟨y, -, heq⟩ := List.mem_map.mp he'
    exact hab (Prod.mk.inj heq).1.symm

/-- Pairs in increasing order are told apart without their orders. -/
theorem sym_inj {e f : Edge} (he : e.1 < e.2) (hf : f.1 < f.2) (h : sym e = sym f) : e = f := by
  obtain ⟨h1, h2⟩ | ⟨h1, h2⟩ := Sym2.eq_iff.mp h
  · exact Prod.ext h1 h2
  · omega

variable [Scalar α]

/-- The edges taken so far form a forest with the partition as its components. -/
structure Selecting (n : ℕ) (costs : Table α) (k₀ k : Kruskal α) : Prop where
  frame : { k with tree := k₀.tree, sets := k₀.sets, nonTreeEdges := k₀.nonTreeEdges } = k₀
  recorded : k.tree.Recorded n costs
  inner : ∀ x y, s(x, y) ∈ k.tree.edgeSet → x ∈ innerNodes n ∧ y ∈ innerNodes n
  forest : IsForest k.tree.edgeSet
  sets : k.sets.Valid n
  same : ∀ x y, k.sets.Same x y ↔ Joined k.tree.edgeSet x y

variable {k₀ k : Kruskal α} {a b : ℕ}

theorem Selecting.skip (h : Selecting n costs k₀ k) (ha : a < n) (hb : b < n)
    (hab : Joined k.tree.edgeSet a b) :
    (k.sets.union a b).1 = false ∧
      ∀ edges, Selecting n costs k₀
        { k with sets := (k.sets.union a b).2, nonTreeEdges := edges } := by
  obtain ⟨hfresh, hvalid, hsame⟩ := Partition.union_spec h.sets ha hb
  have hab' := (h.same a b).mpr hab
  refine ⟨Bool.eq_false_iff.mpr fun htrue => hfresh.mp htrue hab', fun edges =>
    ⟨h.frame, h.recorded, h.inner, h.forest, hvalid, fun x y => ?_⟩⟩
  rw [hsame, ← h.same]
  refine ⟨?_, Or.inl⟩
  rintro (hxy | ⟨hx, hy⟩ | ⟨hx, hy⟩)
  · exact hxy
  · exact (hx.trans hab').trans hy
  · exact (hx.trans hab'.symm).trans hy

theorem Selecting.take (h : Selecting n costs k₀ k) (ha : a ∈ innerNodes n)
    (hb : b ∈ innerNodes n) (hab : ¬ Joined k.tree.edgeSet a b) :
    (k.sets.union a b).1 = true ∧
      ∀ edges, Selecting n costs k₀
        { k with
          sets := (k.sets.union a b).2
          tree := k.tree.addEdge a b (costs.cost a b)
          nonTreeEdges := edges } := by
  obtain ⟨-, han⟩ := mem_innerNodes.mp ha
  obtain ⟨-, hbn⟩ := mem_innerNodes.mp hb
  obtain ⟨hfresh, hvalid, hsame⟩ := Partition.union_spec h.sets han hbn
  have hne : a ≠ b := fun heq => hab (heq ▸ Joined.refl _ a)
  have hnew : s(a, b) ∉ k.tree.edgeSet := fun hmem => hab (Joined.edge hmem)
  have hset : (k.tree.addEdge a b (costs.cost a b)).edgeSet =
      insert s(a, b) k.tree.edgeSet := edgeSet_addEdge _ _ _ _
  refine ⟨hfresh.mpr fun hs => hab ((h.same a b).mp hs), fun edges =>
    ⟨h.frame, h.recorded.addEdge han hbn hne hnew, fun x y hxy => ?_, ?_, hvalid,
      fun x y => ?_⟩⟩
  · rw [hset, Finset.mem_insert] at hxy
    obtain heq | hxy := hxy
    · obtain ⟨rfl, rfl⟩ | ⟨rfl, rfl⟩ := Sym2.eq_iff.mp heq
      · exact ⟨ha, hb⟩
      · exact ⟨hb, ha⟩
    · exact h.inner x y hxy
  · rw [hset]
    exact h.forest.insert hab
  · rw [hsame, hset, Joined.insert_iff]
    simp only [h.same]

/-! ### The mandatory edges -/

/-- The possible inner edges, from the smaller to the larger endpoint. -/
def possiblePairs (n : ℕ) (g : GraphVar) : List Edge :=
  (pairs n).filter fun e => g.isPotential e.1 e.2

def mandatoryPairs (n : ℕ) (g : GraphVar) : List Edge :=
  (possiblePairs n g).filter fun e => g.isMandatory e.1 e.2

/-- The pairs among which the cheapest ones are selected. -/
def optionalPairs (n : ℕ) (g : GraphVar) : List Edge :=
  (possiblePairs n g).filter fun e => !g.isMandatory e.1 e.2

theorem mem_possiblePairs {e : Edge} : e ∈ possiblePairs n g ↔
    e.1 ≠ designated ∧ e.1 < e.2 ∧ e.2 < n ∧ g.isPotential e.1 e.2 = true := by
  obtain ⟨a, b⟩ := e
  rw [possiblePairs, List.mem_filter, mem_pairs]
  simp only [and_assoc]

theorem mem_mandatoryPairs {e : Edge} : e ∈ mandatoryPairs n g ↔
    e ∈ possiblePairs n g ∧ g.isMandatory e.1 e.2 = true := List.mem_filter

theorem mem_optionalPairs {e : Edge} : e ∈ optionalPairs n g ↔
    e ∈ possiblePairs n g ∧ g.isMandatory e.1 e.2 = false := by
  rw [optionalPairs, List.mem_filter, Bool.not_eq_true']

theorem inner_of_mem {e : Edge} (he : e ∈ possiblePairs n g) :
    e.1 ∈ innerNodes n ∧ e.2 ∈ innerNodes n := by
  obtain ⟨ha, hab, hb, -⟩ := mem_possiblePairs.mp he
  have hzero : designated = 0 := rfl
  rw [mem_innerNodes, mem_innerNodes]
  omega

/-- Every possible edge between inner nodes is listed. -/
theorem exists_pair (hg : g.IsSimple n) {x y : ℕ} (hx : x ∈ innerNodes n) (hy : y ∈ innerNodes n)
    (hxy : g.isPotential x y = true) : ∃ e ∈ possiblePairs n g, sym e = s(x, y) := by
  obtain ⟨hx0, hxn⟩ := mem_innerNodes.mp hx
  obtain ⟨hy0, hyn⟩ := mem_innerNodes.mp hy
  obtain hlt | hlt := Nat.lt_or_gt_of_ne (hg.ne_of_isPotential hxy)
  · exact ⟨(x, y), mem_possiblePairs.mpr ⟨hx0, hlt, hyn, hxy⟩, rfl⟩
  · exact ⟨(y, x), mem_possiblePairs.mpr ⟨hy0, hlt, hxn, hg.isPotential_symm hxy⟩, Sym2.eq_swap⟩

theorem nodup_sym_possiblePairs (n : ℕ) (g : GraphVar) : ((possiblePairs n g).map sym).Nodup := by
  apply List.Nodup.map_on _ ((nodup_pairs n).filter _)
  intro e he f hf heq
  exact sym_inj (mem_possiblePairs.mp he).2.1 (mem_possiblePairs.mp hf).2.1 heq

/-- The mandatory edges up to some point were taken. -/
structure TakingMandatory (n : ℕ) (costs : Table α) (g : GraphVar) (k₀ : Kruskal α)
    (rest : List Edge) (k : Kruskal α) : Prop where
  selecting : Selecting n costs k₀ k
  nonTreeEdges_eq : k.nonTreeEdges = k₀.nonTreeEdges
  taken : ∃ done, done ++ rest = mandatoryPairs n g ∧
    k.tree.edgeSet = (done.map sym).toFinset

/-- A mandatory edge that would close a cycle with those that were taken before. -/
theorem TakingMandatory.not_acyclic (hg : g.IsSimple n) {rest : List Edge} {e : Edge}
    (h : TakingMandatory n costs g k₀ (e :: rest) k) (hnew : sym e ∉ k.tree.edgeSet)
    (hab : Joined k.tree.edgeSet e.1 e.2) : ¬ MandatoryAcyclic g := by
  intro hacyclic
  obtain ⟨done, hdone, hset⟩ := h.taken
  have hforest : IsForest (insert (sym e) k.tree.edgeSet) := by
    apply hacyclic
    intro f hf
    obtain ⟨p, hp, rfl⟩ : ∃ p ∈ done ++ e :: rest, sym p = f := by
      obtain rfl | hf := Finset.mem_insert.mp hf
      · exact ⟨e, by simp, rfl⟩
      · rw [hset, List.mem_toFinset, List.mem_map] at hf
        obtain ⟨p, hp, rfl⟩ := hf
        exact ⟨p, by simp [hp], rfl⟩
    obtain ⟨hpP, hpM⟩ := mem_mandatoryPairs.mp (hdone ▸ hp)
    exact ⟨hg.mem_mandatoryEdges.mpr hpM,
      not_mem_inner (inner_of_mem hpP).1 (inner_of_mem hpP).2⟩
  apply hforest e.1 e.2 (Finset.mem_insert_self _ _)
  change Joined ((insert (sym e) k.tree.edgeSet).erase (sym e)) e.1 e.2
  rwa [Finset.erase_insert hnew]

theorem takeMandatory_wp (hcosts : costs.Square n) (hg : g.IsSimple n) {rest : List Edge}
    {e : Edge} (h : TakingMandatory n costs g k₀ (e :: rest) k) :
    (takeMandatory costs e).wp (fun _ k' => TakingMandatory n costs g k₀ rest k')
      (fun failure _ => failure = .conflict detector ∧ ¬ MandatoryAcyclic g) k := by
  obtain ⟨done, hdone, hset⟩ := h.taken
  have hmem : e ∈ mandatoryPairs n g := hdone ▸ List.mem_append_right done List.mem_cons_self
  obtain ⟨he, -⟩ := mem_mandatoryPairs.mp hmem
  obtain ⟨ha, hb⟩ := inner_of_mem he
  have han := (mem_innerNodes.mp ha).2
  have hbn := (mem_innerNodes.mp hb).2
  have hnodup : ((done ++ e :: rest).map sym).Nodup :=
    hdone ▸ (nodup_sym_possiblePairs n g).sublist (List.filter_sublist.map sym)
  have hnew : sym e ∉ k.tree.edgeSet := by
    rw [hset, List.mem_toFinset]
    rw [List.map_append, List.map_cons] at hnodup
    exact fun hin => (List.nodup_append.mp hnodup).2.2 _ hin _ List.mem_cons_self rfl
  rw [Attempt.wp, takeMandatory]
  by_cases hab : Joined k.tree.edgeSet e.1 e.2
  · obtain ⟨hfresh, -⟩ := h.selecting.skip han hbn hab
    simp only [hfresh]
    exact ⟨rfl, h.not_acyclic hg hnew hab⟩
  · obtain ⟨hfresh, htake⟩ := h.selecting.take ha hb hab
    have hcovers : costs.covers e.1 e.2 = true := hcosts.covers han hbn
    simp only [hfresh, hcovers]
    refine ⟨htake k.nonTreeEdges, h.nonTreeEdges_eq, done ++ [e], by simp [hdone], ?_⟩
    change (k.tree.addEdge e.1 e.2 _).edgeSet = _
    rw [edgeSet_addEdge, hset]
    ext f
    simp only [Finset.mem_insert, List.mem_toFinset, List.map_append, List.mem_append,
      List.map_cons, List.map_nil, List.mem_singleton]
    exact or_comm

/-! ### The optional edges -/

/-- The optional edges up to some point were considered, in an order that follows a relation. -/
structure Considered (n : ℕ) (costs : Table α) (g : GraphVar) (R : Sym2 ℕ → Sym2 ℕ → Prop)
    (k₀ : Kruskal α) (done : List Edge) (k : Kruskal α) : Prop where
  selecting : Selecting n costs k₀ k
  mandatory : ∀ e ∈ mandatoryPairs n g, sym e ∈ k.tree.edgeSet
  taken : ∀ f ∈ k.tree.edgeSet, f ∈ g.mandatoryEdges ∨ ∃ e ∈ done, sym e = f
  joined : ∀ e ∈ done, Joined k.tree.edgeSet e.1 e.2
  nonTree : k.nonTreeEdges.reverse = done.filter fun e => sym e ∉ k.tree.edgeSet
  earlier : ∀ e ∈ done, sym e ∉ k.tree.edgeSet → ∀ f ∈ k.tree.edgeSet, f ∉ g.mandatoryEdges →
    ¬ Joined (k.tree.edgeSet.erase f) e.1 e.2 → R f (sym e)

variable {R : Sym2 ℕ → Sym2 ℕ → Prop}

/-- An edge that closes a cycle is passed over. -/
theorem Considered.skip {done : List Edge} {e : Edge} {sets : Partition}
    (h : Considered n costs g R k₀ done k) (hfresh : sym e ∉ k.tree.edgeSet)
    (hjoined : Joined k.tree.edgeSet e.1 e.2) (hsorted : ∀ f ∈ done, R (sym f) (sym e))
    (hselecting : Selecting n costs k₀ { k with sets, nonTreeEdges := e :: k.nonTreeEdges }) :
    Considered n costs g R k₀ (done ++ [e])
      { k with sets, nonTreeEdges := e :: k.nonTreeEdges } := by
  refine ⟨hselecting, h.mandatory, fun f hf => ?_, fun f hf => ?_, ?_,
    fun f hf hft d hd hdM hneeded => ?_⟩
  · obtain hM | ⟨p, hp, heq⟩ := h.taken f hf
    · exact .inl hM
    · exact .inr ⟨p, List.mem_append_left _ hp, heq⟩
  · obtain hf | hf := List.mem_append.mp hf
    · exact h.joined f hf
    · exact List.mem_singleton.mp hf ▸ hjoined
  · rw [List.reverse_cons, h.nonTree, List.filter_append]
    simp [hfresh]
  · obtain hf | hf := List.mem_append.mp hf
    · exact h.earlier f hf hft d hd hdM hneeded
    · obtain rfl := List.mem_singleton.mp hf
      obtain hM | ⟨p, hp, rfl⟩ := h.taken d hd
      · exact absurd hM hdM
      · exact hsorted p hp

/-- An edge that joins two trees is taken. -/
theorem Considered.take {done : List Edge} {e : Edge} {sets : Partition}
    (h : Considered n costs g R k₀ done k) (hfresh : sym e ∉ k.tree.edgeSet)
    (hother : ∀ f ∈ done, sym f ≠ sym e)
    (hselecting : Selecting n costs k₀
      { k with sets, tree := k.tree.addEdge e.1 e.2 (costs.cost e.1 e.2) }) :
    Considered n costs g R k₀ (done ++ [e])
      { k with sets, tree := k.tree.addEdge e.1 e.2 (costs.cost e.1 e.2) } := by
  have hset : (k.tree.addEdge e.1 e.2 (costs.cost e.1 e.2)).edgeSet =
      insert (sym e) k.tree.edgeSet := edgeSet_addEdge _ _ _ _
  refine ⟨hselecting, ?_, ?_, ?_, ?_, ?_⟩ <;> simp only [hset]
  · exact fun f hf => Finset.mem_insert_of_mem (h.mandatory f hf)
  · intro f hf
    obtain rfl | hf := Finset.mem_insert.mp hf
    · exact .inr ⟨e, by simp, rfl⟩
    · obtain hM | ⟨p, hp, heq⟩ := h.taken f hf
      · exact .inl hM
      · exact .inr ⟨p, List.mem_append_left _ hp, heq⟩
  · intro f hf
    obtain hf | hf := List.mem_append.mp hf
    · exact (h.joined f hf).mono (Finset.subset_insert _ _)
    · exact List.mem_singleton.mp hf ▸ Joined.edge (Finset.mem_insert_self _ _)
  · rw [h.nonTree, List.filter_append]
    simp only [Finset.mem_insert, not_or, List.filter_cons, List.filter_nil,
      not_true_eq_false, false_and, decide_false, Bool.false_eq_true, if_false, List.append_nil]
    apply List.filter_congr
    intro f hf
    simp [hother f hf]
  · intro f hf hft d hd hdM hneeded
    have hft' : sym f ∉ k.tree.edgeSet := fun hmem => hft (Finset.mem_insert_of_mem hmem)
    obtain hf | hf := List.mem_append.mp hf
    · obtain rfl | hd := Finset.mem_insert.mp hd
      · -- the ends of an edge that was passed over stay joined without the new edge
        rw [Finset.erase_insert hfresh] at hneeded
        exact absurd (h.joined f hf) hneeded
      · apply h.earlier f hf hft' d hd hdM
        intro hjoined
        exact hneeded (hjoined.mono (Finset.erase_subset_erase _ (Finset.subset_insert _ _)))
    · obtain rfl := List.mem_singleton.mp hf
      exact absurd (Finset.mem_insert_self _ _) hft

theorem Considered.next (hg : g.IsSimple n) {done : List Edge} {e : Edge}
    (h : Considered n costs g R k₀ done k) (he : e ∈ optionalPairs n g)
    (hdone : ∀ f ∈ done, f ∈ optionalPairs n g) (hnew : e ∉ done)
    (hsorted : ∀ f ∈ done, R (sym f) (sym e)) :
    Considered n costs g R k₀ (done ++ [e]) (takeUnlessCycle costs k e) := by
  obtain ⟨heP, heM⟩ := mem_optionalPairs.mp he
  obtain ⟨ha, hb⟩ := inner_of_mem heP
  have han := (mem_innerNodes.mp ha).2
  have hbn := (mem_innerNodes.mp hb).2
  have hnotM : sym e ∉ g.mandatoryEdges := fun hM =>
    absurd (heM.symm.trans (hg.mem_mandatoryEdges.mp hM)) (by simp)
  have hother : ∀ f ∈ done, sym f ≠ sym e := by
    intro f hf heq
    have hfP := mem_possiblePairs.mp (mem_optionalPairs.mp (hdone f hf)).1
    exact hnew (sym_inj hfP.2.1 (mem_possiblePairs.mp heP).2.1 heq ▸ hf)
  have hfresh : sym e ∉ k.tree.edgeSet := by
    intro hmem
    obtain hM | ⟨f, hf, heq⟩ := h.taken _ hmem
    · exact hnotM hM
    · exact hother f hf heq
  rw [takeUnlessCycle]
  by_cases hab : Joined k.tree.edgeSet e.1 e.2
  · obtain ⟨hunion, hskip⟩ := h.selecting.skip han hbn hab
    simp only [hunion, Bool.false_eq_true, if_false]
    exact h.skip hfresh hab hsorted (hskip _)
  · obtain ⟨hunion, htake⟩ := h.selecting.take ha hb hab
    simp only [hunion, if_true]
    exact h.take hfresh hother (htake _)

theorem considered_foldl (hg : g.IsSimple n) {sorted done rest : List Edge}
    (hsplit : done ++ rest = sorted) (hperm : sorted.Perm (optionalPairs n g))
    (hpairwise : sorted.Pairwise fun e f => R (sym e) (sym f))
    (h : Considered n costs g R k₀ done k) :
    Considered n costs g R k₀ sorted (rest.foldl (takeUnlessCycle costs) k) := by
  induction rest generalizing done k with
  | nil =>
      rw [List.append_nil] at hsplit
      exact hsplit ▸ h
  | cons e rest ih =>
      subst hsplit
      have hnodup : (done ++ e :: rest).Nodup :=
        hperm.nodup_iff.mpr (((nodup_pairs n).filter _).filter _)
      apply ih (List.append_cons done e rest).symm
      apply h.next hg
      · exact hperm.mem_iff.mp (by simp)
      · exact fun f hf => hperm.mem_iff.mp (List.mem_append_left _ hf)
      · exact fun hmem => (List.nodup_append.mp hnodup).2.2 e hmem e List.mem_cons_self rfl
      · exact fun f hf => (List.pairwise_append.mp hpairwise).2.2 f hf e List.mem_cons_self

/-- All possible inner edges were considered. -/
structure Selected (n : ℕ) (costs : Table α) (g : GraphVar) (R : Sym2 ℕ → Sym2 ℕ → Prop)
    (k₀ k : Kruskal α) : Prop where
  selecting : Selecting n costs k₀ { k with nonTreeEdges := k₀.nonTreeEdges }
  mandatory : ∀ e ∈ mandatoryPairs n g, sym e ∈ k.tree.edgeSet
  possible : ∀ e ∈ k.tree.edgeSet, e ∈ g.possibleEdges
  joined : ∀ e ∈ possiblePairs n g, Joined k.tree.edgeSet e.1 e.2
  nonTree : ∀ e, e ∈ k.nonTreeEdges ↔ e ∈ possiblePairs n g ∧ sym e ∉ k.tree.edgeSet
  sorted : k.nonTreeEdges.Pairwise fun e f => R (sym e) (sym f)
  earlier : ∀ e ∈ possiblePairs n g, sym e ∉ k.tree.edgeSet → ∀ f ∈ k.tree.edgeSet,
    f ∉ g.mandatoryEdges → ¬ Joined (k.tree.edgeSet.erase f) e.1 e.2 → R f (sym e)

/-- After the mandatory edges no other edge was considered. -/
theorem TakingMandatory.considered (hg : g.IsSimple n) (hk₀ : k₀.nonTreeEdges = [])
    (h : TakingMandatory n costs g k₀ [] k) : Considered n costs g R k₀ [] k := by
  obtain ⟨done, hdone, hset⟩ := h.taken
  rw [List.append_nil] at hdone
  subst hdone
  refine ⟨h.selecting, fun e he => ?_, fun f hf => .inl ?_, by simp, ?_, by simp⟩
  · exact hset ▸ List.mem_toFinset.mpr (List.mem_map_of_mem he)
  · rw [hset, List.mem_toFinset, List.mem_map] at hf
    obtain ⟨e, he, rfl⟩ := hf
    exact hg.mem_mandatoryEdges.mpr (mem_mandatoryPairs.mp he).2
  · rw [h.nonTreeEdges_eq, hk₀]
    rfl

theorem selectCheapest_spec (hg : g.IsSimple n) (hsorted : ((optionalPairs n g).mergeSort
      (cheaper costs)).Pairwise fun e f => R (sym e) (sym f))
    (hk₀ : k₀.nonTreeEdges = []) (h : TakingMandatory n costs g k₀ [] k) :
    Selected n costs g R k₀ (selectCheapest costs (optionalPairs n g) k) := by
  have hend := considered_foldl hg (List.nil_append _) (List.mergeSort_perm _ _) hsorted
    (h.considered hg hk₀)
  rw [selectCheapest]
  generalize ((optionalPairs n g).mergeSort (cheaper costs)).foldl (takeUnlessCycle costs) k = k'
    at hend
  have hmem : ∀ e, e ∈ possiblePairs n g → sym e ∉ k'.tree.edgeSet →
      e ∈ (optionalPairs n g).mergeSort (cheaper costs) := by
    intro e he het
    rw [List.mem_mergeSort, mem_optionalPairs, Bool.eq_false_iff]
    exact ⟨he, fun hM => het (hend.mandatory e (mem_mandatoryPairs.mpr ⟨he, hM⟩))⟩
  have hnonTree : ∀ e, e ∈ k'.nonTreeEdges.reverse ↔
      e ∈ possiblePairs n g ∧ sym e ∉ k'.tree.edgeSet := by
    intro e
    rw [hend.nonTree, List.mem_filter, decide_eq_true_iff]
    constructor
    · rintro ⟨he, het⟩
      exact ⟨(mem_optionalPairs.mp (List.mem_mergeSort.mp he)).1, het⟩
    · rintro ⟨he, het⟩
      exact ⟨hmem e he het, het⟩
  refine ⟨⟨hend.selecting.frame, hend.selecting.recorded, hend.selecting.inner,
    hend.selecting.forest, hend.selecting.sets, hend.selecting.same⟩, hend.mandatory,
    fun e he => ?_, fun e he => ?_, hnonTree, ?_, fun e he het => ?_⟩
  · obtain ⟨x, y, rfl, hxy⟩ | ⟨p, hp, rfl⟩ := hend.taken e he
    · exact hg.mem_possibleEdges.mpr (hg.valid.isPotential hxy)
    · have hpP := (mem_optionalPairs.mp (List.mem_mergeSort.mp hp)).1
      exact hg.mem_possibleEdges.mpr (mem_possiblePairs.mp hpP).2.2.2
  · by_cases het : sym e ∈ k'.tree.edgeSet
    · exact Joined.edge het
    · exact hend.joined e (hmem e he het)
  · change k'.nonTreeEdges.reverse.Pairwise _
    rw [hend.nonTree]
    exact hsorted.filter _
  · exact hend.earlier e (hmem e he het) het

/-! ### The finished one-tree -/

/-- The forest is a spanning tree unless possible edges make none. -/
theorem Selected.isSpanningTree (hn : 2 ≤ n) (hg : g.IsSimple n)
    (h : Selected n costs g R k₀ k) :
    (k.tree.edges.size + 2 = n → IsSpanningTree (innerNodes n) k.tree.edgeSet) ∧
      (k.tree.edges.size + 2 ≠ n →
        ∀ S, IsSpanningTree (innerNodes n) S → ¬ ∀ e ∈ S, e ∈ g.possibleEdges) := by
  have hforest := h.selecting.forest
  have hnonempty : (innerNodes n).Nonempty := by
    rw [← Finset.card_pos, card_innerNodes]
    omega
  have hiff := hforest.isSpanningTree_iff h.selecting.inner hnonempty
  have hcard : k.tree.edgeSet.card = k.tree.edges.size := h.selecting.recorded.card_edgeSet
  rw [card_innerNodes] at hiff
  have hiff' : IsSpanningTree (innerNodes n) k.tree.edgeSet ↔ k.tree.edgeSet.card + 1 = n - 1 :=
    hiff
  rw [hcard] at hiff'
  constructor
  · exact fun hsize => hiff'.mpr (by omega)
  · intro hsize S hS hpossible
    -- the edges of a spanning tree join all inner nodes, and so does the forest
    suffices hspan : IsSpanningTree (innerNodes n) k.tree.edgeSet by
      have := hiff'.mp hspan
      omega
    refine ⟨h.selecting.inner, hforest, fun x hx y hy => ?_⟩
    apply (hS.joined x hx y hy).closed (A := Joined k.tree.edgeSet x) _ (Joined.refl _ x)
    intro u v huv hxu
    obtain ⟨hu, hv⟩ := hS.inside u v huv
    obtain ⟨e, he, heq⟩ := exists_pair hg hu hv (hg.mem_possibleEdges.mp (hpossible _ huv))
    have hjoined := h.joined e he
    obtain ⟨h1, h2⟩ | ⟨h1, h2⟩ := Sym2.eq_iff.mp heq
    · rw [h1, h2] at hjoined
      exact hxu.trans hjoined
    · rw [h1, h2] at hjoined
      exact hxu.trans hjoined.symm

/-- A possible edge is one of the designated node, or an inner one that is listed. -/
theorem possible_cases (hg : g.IsSimple n) {e : Sym2 ℕ} (he : e ∈ g.possibleEdges) :
    (∃ v, e = s(designated, v) ∧ g.isPotential designated v = true) ∨
      (designated ∉ e ∧ ∃ p ∈ possiblePairs n g, sym p = e) := by
  obtain ⟨x, y, rfl, hxy⟩ := he
  by_cases hd : designated ∈ s(x, y)
  · left
    obtain ⟨v, hv⟩ := exists_eq_of_mem hd
    exact ⟨v, hv, hg.mem_possibleEdges.mp (hv ▸ hg.mem_possibleEdges.mpr hxy)⟩
  · right
    rw [Sym2.mem_iff, not_or] at hd
    obtain ⟨hx, hy⟩ := hg.lt_of_isPotential hxy
    exact ⟨by rw [Sym2.mem_iff, not_or]; exact hd,
      exists_pair hg (mem_innerNodes.mpr ⟨Ne.symm hd.1, hx⟩)
        (mem_innerNodes.mpr ⟨Ne.symm hd.2, hy⟩) hxy⟩

/-- A spanning tree with all mandatory edges becomes a one-tree with all of them. -/
theorem candidate_of_attached (hg : g.IsSimple n) {t t' : OneTree α}
    (htree : IsSpanningTree (innerNodes n) t.edgeSet)
    (hmandatory : ∀ e ∈ mandatoryPairs n g, sym e ∈ t.edgeSet)
    (hpossible : ∀ e ∈ t.edgeSet, e ∈ g.possibleEdges) (h : Attached n costs g t t') :
    Candidate (IsOneTree n) g.mandatoryEdges g.possibleEdges t'.edgeSet := by
  have houter := h.candidate hg htree hpossible
  refine ⟨houter.base, fun e he => ?_, houter.possible⟩
  have hpotential : e ∈ g.possibleEdges := by
    obtain ⟨x, y, rfl, hxy⟩ := he
    exact hg.mem_possibleEdges.mpr (hg.valid.isPotential hxy)
  obtain ⟨v, rfl, -⟩ | ⟨hd, p, hp, rfl⟩ := possible_cases hg hpotential
  · exact houter.mandatory _ ⟨he, Sym2.mem_mk_left _ _⟩
  · rw [h.mem_inner_iff hd]
    exact hmandatory p (mem_mandatoryPairs.mpr ⟨hp, hg.mem_mandatoryEdges.mp he⟩)

theorem Selecting.sized (hk₀ : k₀.Sized n) (h : Selecting n costs k₀ k) : k.Sized n := by
  have hframe : ∀ {β : Type} (f : Kruskal α → β),
      f { k with tree := k₀.tree, sets := k₀.sets, nonTreeEdges := k₀.nonTreeEdges } = f k₀ :=
    fun f => congrArg f h.frame
  refine ⟨h.recorded.sized, h.sets.size_eq, ?_, ?_, ?_, ?_, ?_, ?_, ?_, ?_⟩
  · exact (hframe Kruskal.costs).symm ▸ hk₀.costs
  · exact (congrArg Array.size (hframe Kruskal.neighbours)).trans hk₀.neighbours
  · exact (congrArg Array.size (hframe Kruskal.parents)).trans hk₀.parents
  · exact (congrArg Array.size (hframe Kruskal.depths)).trans hk₀.depths
  · exact (hframe Kruskal.pathMaxima).symm ▸ hk₀.pathMaxima
  · exact (congrArg Array.size (hframe Kruskal.replacements)).trans hk₀.replacements
  · exact (congrArg Array.size (hframe Kruskal.jumps)).trans hk₀.jumps
  · exact (hframe Kruskal.marginals).symm ▸ hk₀.marginals

theorem sized_restart (hk : k.Sized n) (hfits : k.costs.fits costs = true) :
    (k.restart costs).Sized n :=
  ⟨(clear_spec hk.tree).1, by
    have hsets := hk.sets
    simp [restart, Partition.reset, Partition.discrete, Partition.size] at hsets ⊢
    exact hsets, hk.costs.overwrite hfits, hk.neighbours, hk.parents, hk.depths, hk.pathMaxima,
    hk.replacements, hk.jumps, hk.marginals⟩

theorem takingMandatory_restart (hk : k.Sized n) :
    TakingMandatory n costs g (k.restart costs) (mandatoryPairs n g) (k.restart costs) := by
  obtain ⟨hrecorded, hempty⟩ := recorded_clear costs hk.tree
  have hedges : (k.restart costs).tree.edgeSet = ∅ := hempty
  have hsets : (k.restart costs).sets = Partition.discrete n := by
    rw [restart, Partition.reset, hk.sets]
  refine ⟨⟨rfl, hrecorded, fun x y hxy => ?_, ?_, ?_, fun x y => ?_⟩, rfl, [], rfl, ?_⟩
  · rw [hedges] at hxy
    exact absurd hxy (Finset.notMem_empty _)
  · rw [hedges]
    exact IsForest.empty
  · rw [hsets]
    exact Partition.valid_discrete n
  · rw [hsets, hedges, Partition.same_discrete]
    constructor
    · rintro rfl
      exact Joined.refl _ x
    · intro h
      apply h.closed (A := fun z => x = z) _ rfl
      exact fun u v huv => absurd huv (Finset.notMem_empty _)
  · rw [hedges]
    rfl

theorem coversPairs_eq (hg : g.IsUndirected n) : coversPairs n g = true := by
  rw [coversPairs, List.all_eq_true]
  rintro ⟨a, b⟩ he
  obtain ⟨-, hab, hb⟩ := mem_pairs.mp he
  rw [hg.order_eq, decide_eq_true_iff]
  exact hab.trans hb

omit [Scalar α] in
theorem knowsCandidates_eq (hcosts : costs.Square n) (k : Kruskal α) :
    k.knowsCandidates costs (optionalPairs n g) = true := by
  have hall : (optionalPairs n g).all (fun e => costs.covers e.1 e.2) = true := by
    rw [List.all_eq_true]
    intro e he
    obtain ⟨-, hab, hb, -⟩ := mem_possiblePairs.mp (mem_optionalPairs.mp he).1
    exact hcosts.covers (hab.trans hb) hb
  unfold knowsCandidates
  split
  next a b heq =>
    rw [heq] at hall
    have hcovers : costs.covers a b = true := by simpa using hall
    rw [hcovers, Bool.true_or]
  next => exact hall

/-- A cycle of mandatory edges and a lack of possible ones both leave no one-tree. -/
theorem none_of_infeasible (h : ¬ MandatoryAcyclic g ∨
    ∀ H, ¬ Candidate (IsOneTree n) (outerMandatory g) g.possibleEdges H) (H : Finset (Sym2 ℕ)) :
    ¬ Candidate (IsOneTree n) g.mandatoryEdges g.possibleEdges H := by
  intro hH
  obtain hcycle | hnone := h
  · exact hcycle (mandatoryAcyclic_of_candidate hH)
  · exact hnone H (hH.mono fun e he => he.1)

/-- The finder holds a one-tree that was selected edge by edge. -/
def Composed (n : ℕ) (costs : Table α) (g : GraphVar) (R : Sym2 ℕ → Sym2 ℕ → Prop)
    (k₀ k : Kruskal α) : Prop :=
  ∃ k₁, Selected n costs g R k₀ k₁ ∧ IsSpanningTree (innerNodes n) k₁.tree.edgeSet ∧
    Attached n costs g k₁.tree k.tree ∧ k = { k₁ with tree := k.tree }

/-- With any costs, a one-tree is computed, or there is none that has all mandatory edges: these
close a cycle, or those of the designated node cannot all be in a one-tree of possible edges. -/
theorem compute_composed (hn : 2 ≤ n) (hk : k.Sized n) (hcosts : costs.Square n)
    (hg : g.IsSimple n) (hsorted : ((optionalPairs n g).mergeSort
      (cheaper costs)).Pairwise fun e f => R (sym e) (sym f)) :
    (compute costs g).wp (fun _ k' => Composed n costs g R (k.restart costs) k')
      (fun failure _ => failure = .conflict detector ∧ (¬ MandatoryAcyclic g ∨
        ∀ H, ¬ Candidate (IsOneTree n) (outerMandatory g) g.possibleEdges H)) k := by
  have horder : k.tree.order = n := hk.tree.order_eq
  have hfits := Table.fits_of_square hk.costs hcosts
  simp only [compute, Attempt.wp_bind, Attempt.wp_get, Attempt.wp_ite, Attempt.wp_pure,
    Attempt.wp_set, Attempt.wp_throw, Attempt.wp_modify, hfits, horder]
  rw [← possiblePairs, ← mandatoryPairs, ← optionalPairs]
  refine ⟨fun h => absurd h (by simp), fun _ => ?_⟩
  refine Attempt.wp_mono (Attempt.wp_forM
    (I := fun rest k' => TakingMandatory n costs g (k.restart costs) rest k')
    (fun e rest k' h => takeMandatory_wp hcosts hg h) _
    (takingMandatory_restart hk)) ?_ fun _ _ h => ⟨h.1, .inl h.2⟩
  intro _ k₁ htaken
  refine ⟨fun h => absurd h (by simp [coversPairs_eq hg.isUndirected, knowsCandidates_eq hcosts]),
    fun _ => ⟨fun h => absurd h (by omega), fun _ => ?_⟩⟩
  have hselected := selectCheapest_spec hg hsorted rfl htaken
  generalize selectCheapest costs (optionalPairs n g) k₁ = k₂ at hselected
  obtain ⟨hspan, hnone⟩ := hselected.isSpanningTree hn hg
  refine ⟨fun hsize => ⟨trivial, .inr fun H hH => hnone hsize _ hH.base.inner fun e he =>
    hH.possible e (mem_innerEdges.mp he).1⟩, fun hsize => ?_⟩
  have hsize' : k₂.tree.edges.size + 2 = n := by simpa using hsize
  have htree := hspan hsize'
  rw [Attempt.wp_within]
  refine Attempt.wp_mono (attachDesignated_wp (by omega) hcosts hg
    hselected.selecting.recorded (outerEdges_eq_empty htree)) ?_ ?_
  · intro _ t hattached
    have hfull : t.edges.size = n := by
      rw [hattached.size_eq]
      exact hsize'
    exact ⟨fun h => absurd hfull h, fun _ => ⟨k₂, hselected, htree, hattached, rfl⟩⟩
  · exact fun _ _ h => ⟨h.1, .inr h.2⟩

/-! ### Exact numbers -/

section Exact

variable {cost : Sym2 ℕ → ℚ} {costs : Table Exact} {k : Kruskal Exact}

theorem cheaper_iff (hcosts : costs.Charges n cost) {e f : Edge} (he : e ∈ possiblePairs n g)
    (hf : f ∈ possiblePairs n g) :
    cheaper costs e f = true ↔ cost (sym e) ≤ cost (sym f) := by
  obtain ⟨-, heab, heb, -⟩ := mem_possiblePairs.mp he
  obtain ⟨-, hfab, hfb, -⟩ := mem_possiblePairs.mp hf
  rw [cheaper, Exact.precedes_iff, hcosts.cost_eq _ (heab.trans heb) _ heb,
    hcosts.cost_eq _ (hfab.trans hfb) _ hfb, Exact.number_le_number]
  rfl

theorem pairwise_mergeSort (hcosts : costs.Charges n cost) :
    ((optionalPairs n g).mergeSort (cheaper costs)).Pairwise
      fun e f => cost (sym e) ≤ cost (sym f) := by
  have hsorted := @List.pairwise_mergeSort _ (cheaper costs)
    (fun e f d hef hfd => by
      rw [cheaper, Exact.precedes_iff] at *
      exact Exact.le_trans hef hfd)
    (fun e f => by
      rw [Bool.or_eq_true, cheaper, cheaper, Exact.precedes_iff, Exact.precedes_iff]
      exact Exact.le_total _ _) (optionalPairs n g)
  apply hsorted.imp_of_mem
  intro e f he hf hef
  have hmem : ∀ {d}, d ∈ (optionalPairs n g).mergeSort (cheaper costs) →
      d ∈ possiblePairs n g := fun hd => (mem_optionalPairs.mp (List.mem_mergeSort.mp hd)).1
  exact (cheaper_iff hcosts (hmem he) (hmem hf)).mp hef

/-- The finder holds a cheapest one-tree. -/
structure Computed (n : ℕ) (cost : Sym2 ℕ → ℚ) (g : GraphVar) (k : Kruskal Exact) : Prop where
  sized : k.Sized n
  costs : k.costs.Charges n cost
  represents : k.tree.Represents n cost
  cheapest : IsCheapest (IsOneTree n) g.mandatoryEdges g.possibleEdges cost k.tree.edgeSet
  nonTree : ∀ e, e ∈ k.nonTreeEdges ↔ e ∈ possiblePairs n g ∧ sym e ∉ k.tree.edgeSet
  sorted : k.nonTreeEdges.Pairwise fun e f => cost (sym e) ≤ cost (sym f)

/-- A spanning tree that no exchange improves and cheapest outer edges make a cheapest one-tree. -/
theorem isCheapest_of_attached (hcosts : costs.Charges n cost) (hg : g.IsSimple n)
    {t t' : OneTree Exact} (htree : IsSpanningTree (innerNodes n) t.edgeSet)
    (hmandatory : ∀ e ∈ mandatoryPairs n g, sym e ∈ t.edgeSet)
    (hpossible : ∀ e ∈ t.edgeSet, e ∈ g.possibleEdges)
    (hlocal : ∀ e ∈ possiblePairs n g, sym e ∉ t.edgeSet → ∀ f ∈ t.edgeSet,
      f ∉ g.mandatoryEdges → ¬ Joined (t.edgeSet.erase f) e.1 e.2 → cost f ≤ cost (sym e))
    (h : Attached n costs g t t') :
    IsCheapest (IsOneTree n) g.mandatoryEdges g.possibleEdges cost t'.edgeSet := by
  have hcandidate := candidate_of_attached hg htree hmandatory hpossible h
  have hone := hcandidate.base
  apply Candidate.isCheapest (exchanges_oneTree n) hcandidate
  intro e he het f hf hfM hbase
  obtain ⟨v, rfl, hv⟩ | ⟨hd, p, hp, rfl⟩ := possible_cases hg he
  · rw [hone.exchange_outer_iff (mem_inner_of_isPotential hg hv) het hf] at hbase
    obtain ⟨w, rfl⟩ := exists_eq_of_mem hbase
    apply h.cheapest hcosts hg hv het hf
    rw [Bool.eq_false_iff]
    exact fun hM => hfM (hg.mem_mandatoryEdges.mpr hM)
  · obtain ⟨ha, hb⟩ := inner_of_mem hp
    obtain ⟨hdf, hneeded⟩ := (hone.exchange_inner_iff ha hb het hf).mp hbase
    rw [h.inner_eq] at hneeded
    exact hlocal p hp (fun hmem => het ((h.mem_inner_iff hd).mpr hmem)) f
      ((h.mem_inner_iff hdf).mp hf) hfM hneeded

/-- On exact numbers, a cheapest one-tree is computed, or there is none. -/
theorem compute_wp (hn : 2 ≤ n) (hk : k.Sized n) (hcosts : costs.Charges n cost)
    (hg : g.IsSimple n) :
    (compute costs g).wp (fun _ k' => Computed n cost g k')
      (fun failure _ => failure = .conflict detector ∧
        ∀ H, ¬ Candidate (IsOneTree n) g.mandatoryEdges g.possibleEdges H) k := by
  have hsized := sized_restart hk (Table.fits_of_square hk.costs hcosts.square)
  have hrestart : (k.restart costs).costs = costs := Table.overwrite_eq hk.costs hcosts.square
  refine Attempt.wp_mono (compute_composed (R := fun e f => cost e ≤ cost f) hn hk hcosts.square hg
    (pairwise_mergeSort hcosts)) ?_ fun _ _ h => ⟨h.1, none_of_infeasible h.2⟩
  rintro _ k' ⟨k₁, hselected, htree, hattached, hk'⟩
  have hk₁ := hselected.selecting.sized hsized
  have hcosts' : k₁.costs = costs :=
    (congrArg Kruskal.costs hselected.selecting.frame).trans hrestart
  have hcheapest := isCheapest_of_attached hcosts hg htree hselected.mandatory hselected.possible
    hselected.earlier hattached
  have hnonTree : ∀ e, e ∈ k₁.nonTreeEdges ↔ e ∈ possiblePairs n g ∧ sym e ∉ k'.tree.edgeSet := by
    intro e
    rw [hselected.nonTree]
    apply and_congr_right
    intro he
    have hd : designated ∉ sym e := not_mem_inner (inner_of_mem he).1 (inner_of_mem he).2
    rw [hattached.mem_inner_iff hd]
  generalize k'.tree = t at hattached hk' hcheapest hnonTree
  subst hk'
  exact ⟨⟨hattached.recorded.sized, hk₁.sets, hk₁.costs, hk₁.neighbours, hk₁.parents,
    hk₁.depths, hk₁.pathMaxima, hk₁.replacements, hk₁.jumps, hk₁.marginals⟩,
    hcosts'.symm ▸ hcosts, hattached.recorded.represents hcosts, hcheapest, hnonTree,
    hselected.sorted⟩

end Exact

end Kruskal

end GraphInterval
