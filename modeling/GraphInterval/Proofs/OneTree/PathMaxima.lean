import GraphInterval.Proofs.OneTree.Sized

/-!
# The largest costs on the paths

The table of path maxima has, for any two nodes, the largest cost of an
optional edge on the tree path between them.  This holds in every arithmetic
whose comparisons are lawful.  A cost that cannot be compared with itself is
passed over, so not all costs of a path have to be numbers.  No entry depends
on what an earlier analysis left in the table or in the shortcuts.
-/

namespace GraphInterval

namespace Kruskal

open OneTree

variable {α : Type} [Scalar α] {n : ℕ} {g : GraphVar} {k : Kruskal α} {s v : ℕ}

/-- An optional edge on the tree path between two nodes. -/
def OptionalOnPath (g : GraphVar) (k : Kruskal α) (a b x y : ℕ) : Prop :=
  OnPath (innerEdges k.tree.edgeSet) s(x, y) a b ∧ g.isMandatory x y = false

/-- The matrix and the mandatory edges are symmetric on the inner nodes. -/
structure IsSymmetric (n : ℕ) (g : GraphVar) (k : Kruskal α) : Prop where
  cost : ∀ a ∈ innerNodes n, ∀ b ∈ innerNodes n, k.costs.cost a b = k.costs.cost b a
  isMandatory : ∀ a ∈ innerNodes n, ∀ b ∈ innerNodes n, g.isMandatory a b = g.isMandatory b a

theorem IsSymmetric.replaceableCost (h : IsSymmetric n g k) :
    ∀ a ∈ innerNodes n, ∀ b ∈ innerNodes n, k.replaceableCost g a b = k.replaceableCost g b a := by
  intro a ha b hb
  rw [Kruskal.replaceableCost, Kruskal.replaceableCost, h.cost a ha b hb, h.isMandatory a ha b hb]

/-- A mandatory edge has no cost that can be attained or exceeded, so the largest costs are those of
optional edges. -/
theorem isLargest_optional {E : ℕ → ℕ → Prop} {m : α} (h : IsLargest E (k.replaceableCost g) m) :
    IsLargest (fun x y => E x y ∧ g.isMandatory x y = false) k.costs.cost m := by
  have hoptional : ∀ {x y}, g.isMandatory x y = false →
      k.replaceableCost g x y = k.costs.cost x y := by
    intro x y hxy
    rw [replaceableCost, hxy]
    rfl
  refine ⟨h.self, fun x y hxy hself => ?_, ?_⟩
  · rw [← hoptional hxy.2] at hself ⊢
    exact h.le x y hxy.1 hself
  · obtain hm | ⟨x, y, hxy, hm⟩ := h.attained
    · exact .inl hm
    · cases hmandatory : g.isMandatory x y with
      | true =>
          rw [replaceableCost, if_pos hmandatory] at hm
          exact .inl hm
      | false => exact .inr ⟨x, y, ⟨hxy, hmandatory⟩, hm.trans (hoptional hmandatory)⟩

/-- The finder when the search from a source begins, with the paths from all nodes before it. -/
def beforeSource (g : GraphVar) (k : Kruskal α) (s : ℕ) : Kruskal α :=
  (List.range' 1 (s - 1)).foldl (pathMaximaFrom g) k

/-- The maxima are those of the last search, after one from every inner node. -/
theorem computePathMaxima_eq (hk : k.Sized n) :
    k.computePathMaxima g = k.beforeSource g n := by
  rw [computePathMaxima, beforeSource, hk.tree.order_eq]

theorem beforeSource_succ (g : GraphVar) (k : Kruskal α) (hs : 1 ≤ s) :
    k.beforeSource g (s + 1) = pathMaximaFrom g (k.beforeSource g s) s := by
  obtain ⟨s, rfl⟩ := Nat.exists_eq_add_of_le' hs
  rw [beforeSource, Nat.add_sub_cancel, List.range'_concat, List.foldl_append, beforeSource,
    Nat.add_sub_cancel, Nat.one_mul, Nat.add_comm 1 s]
  rfl

/-- The search from every source visits every node once, whatever the ones before it left. -/
theorem beforeSource_search (g : GraphVar) (hk : k.Sized n) (hlisted : k.Listed)
    (htree : IsSpanningTree (innerNodes n) (innerEdges k.tree.edgeSet)) (hs : s ∈ innerNodes n) :
    VisitsOnce (innerNodes n) stack (pathStep g s) ((k.beforeSource g s).pathStart s)
      (k.beforeSource g (s + 1)) := by
  obtain ⟨hpos, hlt⟩ := mem_innerNodes.mp hs
  have hsources : ∀ x ∈ List.range' 1 (s - 1), x ∈ innerNodes n := by
    intro x hx
    rw [List.mem_range'_1] at hx
    rw [mem_innerNodes, designated]
    omega
  obtain ⟨k', heq, hframe, hsized, -⟩ := foldl_pathMaximaFrom_spec g hk hlisted htree hsources
  have htree' : k'.tree = k.tree := (congrArg Kruskal.tree hframe :)
  rw [beforeSource_succ g k (Nat.one_le_iff_ne_zero.mpr hpos), beforeSource, heq]
  exact (pathMaximaFrom_search g hsized (hframe.listed hlisted) (htree' ▸ htree) hs).1

/-- After the analysis has rooted any tree over the inner nodes and searched it from all of them,
the table has the largest cost of an optional edge on every path.  All searches end, and visit every
node once. -/
theorem computePathMaxima_largest [LawfulScalar α] (hn : 2 ≤ n) (hk : k.Sized n)
    (hnodup : ((innerPairs k.tree).map sym).Nodup)
    (htree : IsSpanningTree (innerNodes n) (innerEdges k.tree.edgeSet))
    (hsymm : IsSymmetric n g k) :
    let maxima := (k.rootTree.computePathMaxima g).pathMaxima
    (∀ a ∈ innerNodes n, ∀ b ∈ innerNodes n, maxima.covers a b = true ∧
      IsLargest (OptionalOnPath g k a b) k.costs.cost (maxima.entry a b Scalar.bottom)) ∧
    VisitsOnce (innerNodes n) stack rootStep k.rootStart k.rootTree ∧
    k.rootTree.computePathMaxima g = k.rootTree.beforeSource g n ∧
    ∀ s ∈ innerNodes n, VisitsOnce (innerNodes n) stack (pathStep g s)
      ((k.rootTree.beforeSource g s).pathStart s) (k.rootTree.beforeSource g (s + 1)) := by
  obtain ⟨hframe, hsized, hlisted, -⟩ := rootTree_spec hn hk hnodup htree
  have hedges : k.rootTree.tree = k.tree := (congrArg Kruskal.tree hframe :)
  have hcosts : k.rootTree.costs = k.costs := (congrArg Kruskal.costs hframe :)
  have htree' := hedges.symm ▸ htree
  obtain ⟨k', heq, -, hsized', hgrows⟩ := computePathMaxima_spec g hsized hlisted htree'
  have hsymm' : IsSymmetric n g k.rootTree := ⟨hcosts.symm ▸ hsymm.cost, hsymm.isMandatory⟩
  refine ⟨fun a ha b hb => ⟨?_, ?_⟩, (rootTree_search hn hk hnodup htree).1,
    computePathMaxima_eq hsized, fun s hs => beforeSource_search g hsized hlisted htree' hs⟩
  · rw [heq]
    exact hsized'.pathMaxima.covers (mem_innerNodes.mp ha).2 (mem_innerNodes.mp hb).2
  · have hlargest := isLargest_optional ((hgrows a ha).isLargest hsymm'.replaceableCost hb)
    rw [hedges, hcosts] at hlargest
    rw [heq]
    exact hlargest

/-- The path over the nodes 1, 2 and 3 with its first edge mandatory; the table is left with another
value everywhere, and nodes wait from an earlier search. -/
theorem computePathMaxima_largest_stale :
    let g := (GraphVar.enforceEdge 1 2).after (GraphVar.unconstrained 4 false)
    let k : Kruskal Exact :=
      { make 4 with
        tree := ((OneTree.empty 4).addEdge 1 2 (.number 3)).addEdge 2 3 (.number 5)
        costs := Table.ofFn 4 fun a b => .number (a + b)
        pathMaxima := Table.replicate 4 .top
        stack := [3, 2] }
    2 ≤ 4 ∧ k.Sized 4 ∧ ((innerPairs k.tree).map sym).Nodup ∧
      IsSpanningTree (innerNodes 4) (innerEdges k.tree.edgeSet) ∧ IsSymmetric 4 g k ∧
      (k.rootTree.computePathMaxima g).pathMaxima.entry 1 3 Scalar.bottom = .number 5 ∧
      IsLargest (OptionalOnPath g k 1 3) k.costs.cost (.number 5) ∧
      VisitsOnce (innerNodes 4) stack rootStep k.rootStart k.rootTree := by
  intro g k
  have hk : k.Sized 4 := by
    have htree : ((OneTree.empty 4 : OneTree Exact).addEdge 1 2 (.number 3)).Sized 4 :=
      (sized_empty 4).addEdge _ _ _
    have hmake := (sized_make (α := Exact) 4).withTree (htree.addEdge 2 3 (.number 5))
    have hcosts : (Table.ofFn 4 fun a b => Exact.number (a + b)).Square 4 := Table.square_ofFn 4 _
    exact ⟨hmake.tree, hmake.sets, hcosts, hmake.neighbours, hmake.parents,
      hmake.depths, Table.square_replicate 4 _, hmake.replacements, hmake.jumps, hmake.marginals⟩
  have hnodup : ((innerPairs k.tree).map sym).Nodup := by decide
  have htree : IsSpanningTree (innerNodes 4) (innerEdges k.tree.edgeSet) := by
    have hpath := ((IsSpanningTree.singleton 1).insert_leaf (x := 2) (y := 1)
      (by decide) (by decide)).insert_leaf (x := 3) (y := 2) (by decide) (by decide)
    have hnodes : innerNodes 4 = {3, 2, 1} := by decide
    have hedges : innerEdges k.tree.edgeSet = {s(2, 3), s(1, 2)} := by decide
    rw [hnodes, hedges]
    exact hpath
  have hsymm : IsSymmetric 4 g k := ⟨by decide +kernel, by decide +kernel⟩
  have hvalue : (k.rootTree.computePathMaxima g).pathMaxima.entry 1 3 Scalar.bottom = .number 5 := by
    decide +kernel
  obtain ⟨hlargest, hvisits, -⟩ := computePathMaxima_largest (by decide) hk hnodup htree hsymm
  have hpath := (hlargest 1 (by decide) 3 (by decide)).2
  rw [hvalue] at hpath
  exact ⟨by decide, hk, hnodup, htree, hsymm, hvalue, hpath, hvisits⟩

end Kruskal

end GraphInterval
