import GraphInterval.Proofs.OneTree.Replacement
import GraphInterval.Proofs.OneTree.Selection
import GraphInterval.Proofs.Scalar.Lawful
import GraphInterval.Proofs.Tree.Path

/-!
# The cheapest edges around tree edges

If the edges outside of the tree come by increasing cost, the first one whose
path contains a tree edge is a cheapest one.  This holds in every arithmetic
whose comparisons are lawful, and for every list of edges between inner nodes.
A list is in order if no edge costs less than one before it, so a cost that
cannot be compared may stand anywhere.
-/

namespace GraphInterval

namespace Kruskal

open OneTree

variable {α : Type} {n : ℕ} {e : Edge} {v : ℕ}

/-- An edge covers the one above a node if its path contains it. -/
theorem covers_iff_onPath {V : Finset ℕ} {T : Finset (Sym2 ℕ)} {up : ℕ → ℕ} {r : ℕ}
    (h : IsRootedTree V T r up) (hv : v ∈ V) (hvr : v ≠ r) (ha : e.1 ∈ V) (hb : e.2 ∈ V) :
    Covers up e v ↔ OnPath T s(v, up v) e.1 e.2 := by
  rw [h.tree.onPath_iff ha hb, h.joined_erase_iff hvr ha hb, Covers]
  exact (and_iff_right (h.edge v hv hvr)).symm

variable [Scalar α] {k : Kruskal α} {f : Sym2 ℕ} {c : α}

/-- The edge is outside of the tree, and its tree path contains a tree edge. -/
def Around (k : Kruskal α) (f : Sym2 ℕ) (e : Edge) : Prop :=
  e ∈ k.nonTreeEdges ∧ OnPath (innerEdges k.tree.edgeSet) f e.1 e.2

/-- The least cost of the edges around a tree edge; the top if there is none. -/
def IsCheapestAround (k : Kruskal α) (f : Sym2 ℕ) (c : α) : Prop :=
  (c = Ranked.top ∧ ∀ e, ¬ k.Around f e) ∨
    ∃ e, k.Around f e ∧ c = k.costs.cost e.1 e.2 ∧
      ∀ d, k.Around f d → ¬ k.costs.cost d.1 d.2 < c

/-- The first edge of a sorted list that covers a tree edge is a cheapest one. -/
theorem IsFirstCost.isCheapestAround [LawfulRanked α] {up : ℕ → ℕ}
    (h : IsFirstCost k.costs up k.nonTreeEdges v c)
    (hcovers : ∀ e ∈ k.nonTreeEdges,
      Covers up e v ↔ OnPath (innerEdges k.tree.edgeSet) f e.1 e.2)
    (hsorted : k.nonTreeEdges.Pairwise fun e d =>
      ¬ k.costs.cost d.1 d.2 < k.costs.cost e.1 e.2) : IsCheapestAround k f c := by
  obtain ⟨hc, hnone⟩ | ⟨before, e, after, hsplit, hev, hbefore, rfl⟩ := h
  · exact .inl ⟨hc, fun e he => hnone e he.1 ((hcovers e he.1).mpr he.2)⟩
  · have he : e ∈ k.nonTreeEdges := by simp [hsplit]
    refine .inr ⟨e, ⟨he, (hcovers e he).mp hev⟩, rfl, fun d hd => ?_⟩
    have hdv := (hcovers d hd.1).mpr hd.2
    have hmem := hd.1
    rw [hsplit] at hmem hsorted
    obtain hd | hd := List.mem_append.mp hmem
    · exact absurd hdv (hbefore d hd)
    · obtain rfl | hd := List.mem_cons.mp hd
      · exact Ranked.lt_irrefl _
      · exact (List.pairwise_cons.mp (List.pairwise_append.mp hsorted).2.1).1 d hd

/-- For any tree over the inner nodes and any sorted list of edges outside of it, the replacement of
every node but the root is the least cost of an edge around the tree edge to its parent.  All loops
end. -/
theorem computeReplacements_cheapest [LawfulRanked α] (hk : k.Spans n)
    (hsorted : k.nonTreeEdges.Pairwise fun e d =>
      ¬ k.costs.cost d.1 d.2 < k.costs.cost e.1 e.2) :
    let k' := k.rootTree.computeReplacements
    CoversPaths k.rootTree.replacementStart k.nonTreeEdges k' ∧
    IsRootedTree (innerNodes n) (innerEdges k.tree.edgeSet) root k'.parent ∧
    ∀ v ∈ innerNodes n, v ≠ root → ∃ c, k'.replacements[v]? = some c ∧
      k.IsCheapestAround s(v, k'.parent v) c := by
  obtain ⟨hframe, hsized, -, hrooted⟩ := rootTree_spec hk.two_le hk.sized hk.nodup hk.tree
  have htree : k.rootTree.tree = k.tree := (congrArg Kruskal.tree hframe :)
  have hcosts : k.rootTree.costs = k.costs := (congrArg Kruskal.costs hframe :)
  have hedges : k.rootTree.nonTreeEdges = k.nonTreeEdges :=
    (congrArg Kruskal.nonTreeEdges hframe :)
  obtain ⟨k', heq, hruns, hframe', hsized', hfirst⟩ :=
    computeReplacements_first hrooted hsized (hedges.symm ▸ hk.inner)
  have hparent : k'.parent = k.rootTree.parent := (congrArg Kruskal.parent hframe' :)
  have hup : IsRootedTree (innerNodes n) (innerEdges k.tree.edgeSet) root k'.parent := by
    rw [hparent, ← htree]
    exact hrooted.tree
  rw [hedges] at hruns hfirst
  rw [hcosts, ← hparent] at hfirst
  rw [heq]
  refine ⟨hruns, hup, fun v hv hvr => ⟨k'.replacements.getD v Ranked.top, ?_, ?_⟩⟩
  · have hlt : v < k'.replacements.size := hsized'.replacements.symm ▸ (mem_innerNodes.mp hv).2
    simp [Array.getD_eq_getD_getElem?, hlt]
  · apply (hfirst v).isCheapestAround _ hsorted
    intro e he
    exact covers_iff_onPath hup hv hvr (hk.inner e he).1 (hk.inner e he).2

/-- A tree with an edge that no other edge goes around. -/
theorem computeReplacements_cheapest_branches :
    let k : Kruskal Exact :=
      { make 6 with
        tree := ((((OneTree.empty 6).addEdge 1 2 (.number 3)).addEdge 2 3 (.number 5)).addEdge 1 4
          (.number 5)).addEdge 4 5 (.number 9)
        nonTreeEdges := [(1, 3), (3, 4)]
        costs := Table.ofFn 6 fun a b => .number (a + b) }
    k.Spans 6 ∧ (k.nonTreeEdges.Pairwise fun e d =>
      ¬ k.costs.cost d.1 d.2 < k.costs.cost e.1 e.2) ∧
    k.rootTree.computeReplacements.replacements[4]? = some (.number 7) ∧
    k.rootTree.computeReplacements.replacements[5]? = some .top ∧
    k.IsCheapestAround s(4, 1) (.number 7) ∧ k.IsCheapestAround s(5, 4) .top := by
  intro k
  have hk : k.Sized 6 := by
    have htree : k.tree.Sized 6 :=
      ((((sized_empty 6).addEdge _ _ _).addEdge _ _ _).addEdge _ _ _).addEdge _ _ _
    have hmake := (sized_make (α := Exact) 6).withTree htree
    have hcosts : (Table.ofFn 6 fun a b => Exact.number (a + b)).Square 6 := Table.square_ofFn 6 _
    exact ⟨hmake.tree, hmake.sets, hcosts, hmake.neighbours, hmake.parents, hmake.depths,
      hmake.pathMaxima, hmake.replacements, hmake.jumps, hmake.marginals⟩
  have htree : IsSpanningTree (innerNodes 6) (innerEdges k.tree.edgeSet) := by
    have hbranches := ((((IsSpanningTree.singleton 1).insert_leaf (x := 2) (y := 1)
      (by decide) (by decide)).insert_leaf (x := 3) (y := 2)
      (by decide) (by decide)).insert_leaf (x := 4) (y := 1)
      (by decide) (by decide)).insert_leaf (x := 5) (y := 4) (by decide) (by decide)
    have hnodes : innerNodes 6 = {5, 4, 3, 2, 1} := by decide
    have hedges : innerEdges k.tree.edgeSet = {s(4, 5), s(1, 4), s(2, 3), s(1, 2)} := by decide
    rw [hnodes, hedges]
    exact hbranches
  have hspans : k.Spans 6 := ⟨by decide, hk, by decide, htree, by decide⟩
  have hsorted : k.nonTreeEdges.Pairwise fun e d =>
      ¬ k.costs.cost d.1 d.2 < k.costs.cost e.1 e.2 := by decide +kernel
  have hparents : k.rootTree.computeReplacements.parent 4 = 1 ∧
      k.rootTree.computeReplacements.parent 5 = 4 := by decide +kernel
  have hvalues : k.rootTree.computeReplacements.replacements[4]? = some (.number 7) ∧
      k.rootTree.computeReplacements.replacements[5]? = some .top := by decide +kernel
  obtain ⟨-, -, hcheapest⟩ := computeReplacements_cheapest hspans hsorted
  obtain ⟨c, hc, hleast⟩ := hcheapest 4 (by decide) (by decide)
  obtain ⟨d, hd, hnone⟩ := hcheapest 5 (by decide) (by decide)
  obtain rfl := Option.some.inj (hc.symm.trans hvalues.1)
  obtain rfl := Option.some.inj (hd.symm.trans hvalues.2)
  rw [hparents.1] at hleast
  rw [hparents.2] at hnone
  exact ⟨hspans, hsorted, hvalues.1, hvalues.2, hleast, hnone⟩

end Kruskal

end GraphInterval
