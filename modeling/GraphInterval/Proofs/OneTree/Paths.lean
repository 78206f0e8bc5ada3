import GraphInterval.OneTree.Sensitivity
import GraphInterval.Proofs.OneTree.Kruskal
import GraphInterval.Proofs.Tree.Growth

/-!
# Paths through the tree

The sensitivity analysis roots the tree at one node and walks through it from
every node.  The first walk leaves the parent and the depth of every node, and
the walks from all nodes leave the largest cost of an optional edge on the path
between any two nodes.
-/

namespace GraphInterval

namespace Kruskal

open OneTree

variable {α : Type} {n : ℕ} {g : GraphVar} {k k₀ k' : Kruskal α} {a b s v x : ℕ}

/-! ### Neighbours -/

/-- The other endpoint of an edge at a node. -/
def otherEnd (v : ℕ) (e : Edge) : Option ℕ :=
  if e.1 = v then some e.2 else if e.2 = v then some e.1 else none

theorem otherEnd_eq_some {e : Edge} : otherEnd v e = some x ↔ sym e = s(v, x) := by
  rw [otherEnd, sym]
  split
  next h => rw [h, Option.some_inj, Sym2.congr_right]
  next h =>
    split
    next h' => rw [h', Option.some_inj, Sym2.eq_swap, Sym2.congr_right]
    next h' =>
      apply iff_of_false (by simp)
      rw [Sym2.eq_iff]
      rintro (heq | heq)
      · exact h heq.1
      · exact h' heq.2

theorem getD_listing (edges : List Edge) (neighbours : Array (List ℕ))
    (hedges : ∀ e ∈ edges, e.1 < neighbours.size ∧ e.2 < neighbours.size ∧ e.1 ≠ e.2) :
    (edges.foldl (fun neighbours (e : Edge) =>
        (neighbours.modify e.1 (· ++ [e.2])).modify e.2 (· ++ [e.1])) neighbours).size =
      neighbours.size ∧
    ∀ v, (edges.foldl (fun neighbours (e : Edge) =>
        (neighbours.modify e.1 (· ++ [e.2])).modify e.2 (· ++ [e.1])) neighbours).getD v [] =
      neighbours.getD v [] ++ edges.filterMap (otherEnd v) := by
  induction edges generalizing neighbours with
  | nil => simp
  | cons e edges ih =>
      obtain ⟨ha, hb, hab⟩ := hedges e List.mem_cons_self
      obtain ⟨hsize, hlist⟩ := ih ((neighbours.modify e.1 (· ++ [e.2])).modify e.2 (· ++ [e.1]))
        fun f hf => by simpa using hedges f (List.mem_cons_of_mem e hf)
      refine ⟨hsize.trans (by simp), fun v => ?_⟩
      rw [List.foldl_cons, hlist, List.filterMap_cons]
      simp only [Array.getD_eq_getD_getElem?, Array.getElem?_modify, otherEnd]
      by_cases hav : e.1 = v
      · have hbv : e.2 ≠ v := fun h => hab (hav.trans h.symm)
        simp [hav ▸ ha, hav, hbv]
      · by_cases hbv : e.2 = v
        · simp [hbv ▸ hb, hav, hbv]
        · simp [hav, hbv]

/-- The neighbours of all nodes in the tree are listed. -/
def Listed (k : Kruskal α) : Prop :=
  ∀ v, (k.treeNeighbours v).Nodup ∧
    ∀ x, x ∈ k.treeNeighbours v ↔ s(v, x) ∈ innerEdges k.tree.edgeSet

/-- The edges away from the designated node, in the order in which they were added. -/
def innerPairs (t : OneTree α) : List Edge :=
  t.edges.toList.filter fun e => e.1 != designated && e.2 != designated

theorem innerEdges_edgeSet (t : OneTree α) :
    innerEdges t.edgeSet = ((innerPairs t).map sym).toFinset := by
  ext e
  rw [mem_innerEdges, mem_edgeSet, List.mem_toFinset, List.mem_map]
  simp only [innerPairs, List.mem_filter]
  constructor
  · rintro ⟨⟨p, hp, rfl⟩, hd⟩
    refine ⟨p, ⟨hp, ?_⟩, rfl⟩
    rw [Sym2.mem_iff] at hd
    grind
  · rintro ⟨p, ⟨hp, hd⟩, rfl⟩
    refine ⟨⟨p, hp, rfl⟩, ?_⟩
    rw [sym, Sym2.mem_iff]
    grind

theorem listNeighbours_spec (hk : k.Sized n) (hnodup : ((innerPairs k.tree).map sym).Nodup)
    (htree : IsSpanningTree (innerNodes n) (innerEdges k.tree.edgeSet)) :
    k.listNeighbours.neighbours.size = n ∧ k.listNeighbours.Listed := by
  have hmem : ∀ e ∈ innerPairs k.tree, s(e.1, e.2) ∈ innerEdges k.tree.edgeSet := by
    intro e he
    rw [innerEdges_edgeSet, List.mem_toFinset]
    exact List.mem_map_of_mem he
  obtain ⟨hsize, hlist⟩ := getD_listing (innerPairs k.tree)
    (Array.replicate k.neighbours.size []) fun e he => by
      rw [Array.size_replicate, hk.neighbours]
      obtain ⟨ha, hb⟩ := htree.inside _ _ (hmem e he)
      exact ⟨(mem_innerNodes.mp ha).2, (mem_innerNodes.mp hb).2, htree.forest.ne (hmem e he)⟩
  refine ⟨hsize.trans (by rw [Array.size_replicate, hk.neighbours]), fun v => ?_⟩
  have heq : k.listNeighbours.treeNeighbours v = (innerPairs k.tree).filterMap (otherEnd v) := by
    refine (hlist v).trans ?_
    simp only [Array.getD_eq_getD_getElem?, Array.getElem?_replicate]
    split <;> simp
  rw [heq]
  constructor
  · rw [List.Nodup, List.pairwise_filterMap]
    apply (List.pairwise_map.mp hnodup).imp
    rintro e f hef x hx y hy rfl
    rw [otherEnd_eq_some] at hx hy
    exact hef (hx.trans hy.symm)
  · intro x
    change _ ↔ s(v, x) ∈ innerEdges k.tree.edgeSet
    simp only [innerEdges_edgeSet, List.mem_toFinset, List.mem_map, List.mem_filterMap,
      otherEnd_eq_some]

/-! ### Walks -/

/-- In every turn of a walk one node is taken off the stack and some others are visited from it. -/
def Walks (step : Kruskal α → Option (Kruskal α)) (visit : ℕ → Kruskal α → ℕ → Kruskal α) : Prop :=
  ∀ k next, step k = some next → ∃ (v : ℕ) (waiting visited : List ℕ),
    next = visited.foldl (visit v) { k with stack := waiting }

/-- What visits keep, whatever waits, holds after a walk. -/
theorem Walks.preserves {step : Kruskal α → Option (Kruskal α)}
    {visit : ℕ → Kruskal α → ℕ → Kruskal α} (h : Walks step visit) {P : Kruskal α → Prop}
    (hstart : P k) (hstack : ∀ k l, P k → P { k with stack := l })
    (hvisit : ∀ v k x, P k → P (visit v k x)) (bound : ℕ) : P (iterate step bound k) := by
  refine iterate_preserves (fun k₁ next hk₁ hstep => ?_) _ _ hstart
  obtain ⟨v, waiting, visited, rfl⟩ := h k₁ next hstep
  exact List.foldlRecOn _ _ (hstack k₁ waiting hk₁) fun k₂ hk₂ x _ => hvisit v k₂ x hk₂

theorem Sized.startWalk (hk : k.Sized n) (v : ℕ) : (k.startWalk v).Sized n := hk.withStack [v]

/-! ### Rooting the tree -/

/-- The finders differ at most in what is written while the tree is rooted. -/
def EqBesideRooting (k k₀ : Kruskal α) : Prop :=
  { k with parents := k₀.parents, depths := k₀.depths, stack := k₀.stack } = k₀

theorem EqBesideRooting.trans (h : k'.EqBesideRooting k) (h₀ : k.EqBesideRooting k₀) :
    k'.EqBesideRooting k₀ := by
  have hframe := congrArg (fun k : Kruskal α =>
    { k with parents := k₀.parents, depths := k₀.depths, stack := k₀.stack }) h
  exact hframe.trans h₀

theorem EqBesideRooting.sized (h : k.EqBesideRooting k₀) (hk₀ : k₀.Sized n)
    (hparents : k.parents.size = n) (hdepths : k.depths.size = n) : k.Sized n := by
  have hk : Sized n
      { k with parents := k₀.parents, depths := k₀.depths, stack := k₀.stack } := h.symm ▸ hk₀
  exact (hk.withRooting hk.neighbours hparents hdepths).withStack k.stack

theorem EqBesideRooting.listed (h : k.EqBesideRooting k₀) (hk₀ : k₀.Listed) : k.Listed := by
  have hk : Listed
      { k with parents := k₀.parents, depths := k₀.depths, stack := k₀.stack } := h.symm ▸ hk₀
  exact hk

theorem hang_spec {children : List ℕ} (k : Kruskal α) (hparents : k.parents.size = n)
    (hdepths : k.depths.size = n) (hlt : ∀ x ∈ children, x < n) (hv : v ∉ children) :
    ∃ k', children.foldl (fun k child => k.hang child v) k = k' ∧
      k'.EqBesideRooting k ∧ k'.stack = children.reverse ++ k.stack ∧
      k'.parents.size = n ∧ k'.depths.size = n ∧
      (∀ x, k'.parent x = if x ∈ children then v else k.parent x) ∧
      (∀ x, k'.depth x = if x ∈ children then k.depth v + 1 else k.depth x) := by
  induction children generalizing k with
  | nil => exact ⟨k, rfl, rfl, rfl, hparents, hdepths, by simp, by simp⟩
  | cons c children ih =>
      obtain ⟨hvc, hv⟩ := List.ne_and_not_mem_of_not_mem_cons hv
      have hc := hlt c List.mem_cons_self
      have hparent : ∀ x, (k.hang c v).parent x = if x = c then v else k.parent x := by
        intro x
        simp only [parent, hang, Array.getD_eq_getD_getElem?, Array.getElem?_setIfInBounds]
        by_cases hx : x = c
        · simp [hx, hparents, hc]
        · simp [hx, Ne.symm hx]
      have hdepth : ∀ x, (k.hang c v).depth x = if x = c then k.depth v + 1 else k.depth x := by
        intro x
        simp only [depth, hang, Array.getD_eq_getD_getElem?, Array.getElem?_setIfInBounds]
        by_cases hx : x = c
        · simp [hx, hdepths, hc]
        · simp [hx, Ne.symm hx]
      obtain ⟨k', heq, hframe, hstack, hparents', hdepths', hparent', hdepth'⟩ := ih (k.hang c v)
        (by simpa [hang] using hparents) (by simpa [hang] using hdepths)
        (fun x hx => hlt x (List.mem_cons_of_mem c hx)) hv
      refine ⟨k', heq, hframe.trans rfl, ?_, hparents', hdepths', fun x => ?_, fun x => ?_⟩
      · rw [hstack, List.reverse_cons, List.append_assoc]
        rfl
      · rw [hparent', hparent]
        grind
      · rw [hdepth', hdepth, hdepth, if_neg hvc]
        grind

/-- The nodes found so far have their parents and depths. -/
structure Rooting (n : ℕ) (k₀ k : Kruskal α) (W : Finset ℕ) : Prop where
  frame : k.EqBesideRooting k₀
  parents : k.parents.size = n
  depths : k.depths.size = n
  depth_root : k.depth root = 0
  depth_eq : ∀ v ∈ W, v ≠ root → k.depth v = k.depth (k.parent v) + 1
  depth_lt : ∀ v ∈ W, k.depth v < W.card

/-- The tree is rooted, with the depths of all nodes. -/
structure IsRooted (n : ℕ) (k : Kruskal α) : Prop where
  tree : IsRootedTree (innerNodes n) (innerEdges k.tree.edgeSet) root k.parent
  depth : IsDepth (innerNodes n) root k.parent k.depth
  depth_lt : ∀ v ∈ innerNodes n, k.depth v < n

/-- The listed neighbours of a node but one. -/
theorem Listed.neighbours (hlisted : k₀.Listed)
    (htree : IsSpanningTree (innerNodes n) (innerEdges k₀.tree.edgeSet)) (v p : ℕ) :
    ((k₀.treeNeighbours v).filter (· != p)).Nodup ∧
      (∀ x, x ∈ (k₀.treeNeighbours v).filter (· != p) ↔
        s(v, x) ∈ innerEdges k₀.tree.edgeSet ∧ x ≠ p) ∧
      (∀ x ∈ (k₀.treeNeighbours v).filter (· != p), x < n) ∧
      v ∉ (k₀.treeNeighbours v).filter (· != p) := by
  obtain ⟨hnodup, hmem⟩ := hlisted v
  have hiff : ∀ x, x ∈ (k₀.treeNeighbours v).filter (· != p) ↔
      s(v, x) ∈ innerEdges k₀.tree.edgeSet ∧ x ≠ p := by
    intro x
    rw [List.mem_filter, hmem, bne_iff_ne]
  refine ⟨hnodup.filter _, hiff, fun x hx => ?_, fun hv => ?_⟩
  · exact (mem_innerNodes.mp (htree.inside _ _ ((hiff x).mp hx).1).2).2
  · exact htree.forest.ne ((hiff v).mp hv).1 rfl

/-- Nodes that hang below a found one are one deeper than it. -/
theorem Rooting.hang {W : Finset ℕ} {waiting children : List ℕ} {T : Finset (Sym2 ℕ)}
    (h : Exploring (innerNodes n) T root k.parent W (v :: waiting)) (hk : Rooting n k₀ k W)
    (hnew : ∀ x ∈ children, x ∉ W)
    (hframe : k'.EqBesideRooting k) (hparents : k'.parents.size = n)
    (hdepths : k'.depths.size = n)
    (hparent : ∀ x, k'.parent x = if x ∈ children then v else k.parent x)
    (hdepth : ∀ x, k'.depth x = if x ∈ children then k.depth v + 1 else k.depth x) :
    Rooting n k₀ k' (W ∪ children.toFinset) := by
  have hvW := h.found v List.mem_cons_self
  have hcard : children ≠ [] → W.card + 1 ≤ (W ∪ children.toFinset).card := by
    intro hne
    obtain ⟨x, hx⟩ := List.exists_mem_of_ne_nil children hne
    rw [← Finset.card_insert_of_notMem (hnew x hx)]
    apply Finset.card_le_card
    apply Finset.insert_subset _ Finset.subset_union_left
    exact Finset.mem_union_right _ (List.mem_toFinset.mpr hx)
  have hold : ∀ x ∈ W, k'.depth x = k.depth x := by
    intro x hx
    rw [hdepth, if_neg fun hc => hnew x hc hx]
  refine ⟨hframe.trans hk.frame, hparents, hdepths, (hold root h.root_mem).trans hk.depth_root,
    fun x hx hxr => ?_, fun x hx => ?_⟩
  · obtain hx | hx := Finset.mem_union.mp hx
    · rw [hold x hx, hparent, if_neg fun hc => hnew x hc hx, hold _ (h.up_mem hx)]
      exact hk.depth_eq x hx hxr
    · have hx := List.mem_toFinset.mp hx
      rw [hparent, if_pos hx, hdepth, if_pos hx, hold v hvW]
  · obtain hx | hx := Finset.mem_union.mp hx
    · rw [hold x hx]
      exact Nat.lt_of_lt_of_le (hk.depth_lt x hx) (Finset.card_le_card Finset.subset_union_left)
    · have hx := List.mem_toFinset.mp hx
      have hlt := hk.depth_lt v hvW
      have hmore := hcard (List.ne_nil_of_mem hx)
      rw [hdepth, if_pos hx]
      omega

theorem rootStep_spec (hlisted : k₀.Listed)
    (htree : IsSpanningTree (innerNodes n) (innerEdges k₀.tree.edgeSet)) {W : Finset ℕ}
    {waiting : List ℕ} (hstack : k.stack = v :: waiting)
    (h : Exploring (innerNodes n) (innerEdges k₀.tree.edgeSet) root k.parent W (v :: waiting))
    (hk : Rooting n k₀ k W) :
    ∃ k', ∃ children : List ℕ,
      rootStep k = some k' ∧ k'.stack = children.reverse ++ waiting ∧ children.Nodup ∧
        (∀ x, x ∈ children ↔ s(v, x) ∈ innerEdges k₀.tree.edgeSet ∧ x ≠ k.parent v) ∧
        (∀ x, k'.parent x = if x ∈ children then v else k.parent x) ∧
        ((∀ x ∈ children, x ∉ W) → Rooting n k₀ k' (W ∪ children.toFinset)) := by
  have hneighbours : k.treeNeighbours v = k₀.treeNeighbours v :=
    (congrArg (fun k : Kruskal α => k.treeNeighbours v) hk.frame :)
  obtain ⟨hnodup, hchildren, hlt, hv⟩ :=
    hneighbours ▸ hlisted.neighbours htree v (k.parent v)
  obtain ⟨k', heq, hframe, hstack', hparents, hdepths, hparent, hdepth⟩ :=
    hang_spec { k with stack := waiting } hk.parents hk.depths hlt hv
  have hframe' : k'.EqBesideRooting k := hframe.trans rfl
  refine ⟨k', _, ?_, hstack', hnodup, hchildren, hparent,
    fun hnew => hk.hang h hnew hframe' hparents hdepths hparent hdepth⟩
  rw [rootStep, hstack]
  exact congrArg some heq

/-- The finder with its neighbours listed, before the tree is searched from its root. -/
def rootStart (k : Kruskal α) : Kruskal α :=
  startWalk
    { k.listNeighbours with
      parents := k.listNeighbours.parents.setIfInBounds root root
      depths := k.listNeighbours.depths.setIfInBounds root 0 } root

theorem rootTree_eq (k : Kruskal α) :
    k.rootTree = iterate rootStep k.tree.order k.rootStart := rfl

theorem walks_rootStep : Walks (@rootStep α) fun v k x => k.hang x v := by
  intro k next hstep
  rw [rootStep] at hstep
  split at hstep
  next => cases hstep
  next v waiting _ => exact ⟨v, waiting, _, (Option.some.inj hstep).symm⟩

/-- What hanging a node keeps, whatever waits, holds of the rooted tree. -/
theorem rootTree_preserves {P : Kruskal α → Prop} (hstart : P k.rootStart)
    (hstack : ∀ k l, P k → P { k with stack := l }) (hhang : ∀ v k x, P k → P (k.hang x v)) :
    P k.rootTree :=
  walks_rootStep.preserves hstart hstack hhang k.tree.order

theorem rootStart_spec (hn : 2 ≤ n) (hk : k.Sized n)
    (hnodup : ((innerPairs k.tree).map sym).Nodup)
    (htree : IsSpanningTree (innerNodes n) (innerEdges k.tree.edgeSet)) :
    k.rootStart.Sized n ∧ k.rootStart.Listed ∧ k.rootStart.parent root = root ∧
      Rooting n k.rootStart k.rootStart {root} := by
  obtain ⟨hsize, hlisted⟩ := listNeighbours_spec hk hnodup htree
  have hsized : k.rootStart.Sized n :=
    (hk.withRooting hsize ((Array.size_setIfInBounds ..).trans hk.parents)
      ((Array.size_setIfInBounds ..).trans hk.depths)).startWalk root
  have hparent : k.rootStart.parent root = root := by
    have hlt : root < k.parents.size := hk.parents.symm ▸ hn
    simp [rootStart, startWalk, parent, listNeighbours, hlt]
  have hdepth : k.rootStart.depth root = 0 := by
    have hlt : root < k.depths.size := hk.depths.symm ▸ hn
    simp [rootStart, startWalk, depth, listNeighbours, hlt]
  refine ⟨hsized, hlisted, hparent, rfl, hsized.parents, hsized.depths, hdepth,
    fun v hv hvr => ?_, fun v hv => ?_⟩
  · exact absurd (Finset.mem_singleton.mp hv) hvr
  · rw [Finset.mem_singleton.mp hv, hdepth, Finset.card_singleton]
    exact Nat.one_pos

/-- The search for parents and depths visits every node once. -/
theorem rootTree_search (hn : 2 ≤ n) (hk : k.Sized n)
    (hnodup : ((innerPairs k.tree).map sym).Nodup)
    (htree : IsSpanningTree (innerNodes n) (innerEdges k.tree.edgeSet)) :
    VisitsOnce (innerNodes n) stack rootStep k.rootStart k.rootTree ∧
      IsRootedTree (innerNodes n) (innerEdges k.tree.edgeSet) root k.rootTree.parent ∧
      Rooting n k.rootStart k.rootTree (innerNodes n) := by
  obtain ⟨-, hlisted, hparent, hstart⟩ := rootStart_spec hn hk hnodup htree
  have hroot : root ∈ innerNodes n := mem_innerNodes.mpr ⟨Nat.one_ne_zero, hn⟩
  have hbound : (innerNodes n).card ≤ k.tree.order := by
    rw [card_innerNodes, hk.tree.order_eq]
    exact Nat.sub_le n 1
  have htree₀ : IsSpanningTree (innerNodes n) (innerEdges k.rootStart.tree.edgeSet) := htree
  obtain ⟨k', heq, hrest⟩ := Exploring.search (J := Rooting n k.rootStart) htree₀
    (fun _ hstack => by rw [rootStep, hstack])
    (fun s v waiting W hstack h hJ => rootStep_spec hlisted htree₀ hstack h hJ) rfl hroot hparent
    hstart hbound
  rw [rootTree_eq, heq]
  exact hrest

theorem rootTree_spec (hn : 2 ≤ n) (hk : k.Sized n)
    (hnodup : ((innerPairs k.tree).map sym).Nodup)
    (htree : IsSpanningTree (innerNodes n) (innerEdges k.tree.edgeSet)) :
    { k.rootTree with
        neighbours := k.neighbours, parents := k.parents, depths := k.depths
        stack := k.stack } = k ∧
      k.rootTree.Sized n ∧ k.rootTree.Listed ∧ k.rootTree.IsRooted n := by
  obtain ⟨hsized, hlisted, -, -⟩ := rootStart_spec hn hk hnodup htree
  obtain ⟨-, hrooted, hkeeps⟩ := rootTree_search hn hk hnodup htree
  generalize k.rootTree = k' at hrooted hkeeps ⊢
  have hframe := hkeeps.frame
  have htree' : k'.tree = k.tree := (congrArg Kruskal.tree hframe :)
  refine ⟨?_, hframe.sized hsized hkeeps.parents hkeeps.depths, hframe.listed hlisted,
    ⟨?_, ⟨hkeeps.depth_root, hkeeps.depth_eq⟩, fun v hv => ?_⟩⟩
  · exact congrArg (fun k' : Kruskal α =>
      { k' with
        neighbours := k.neighbours, parents := k.parents, depths := k.depths
        stack := k.stack }) hframe
  · rw [htree']
    exact hrooted
  · have hlt := hkeeps.depth_lt v hv
    rw [card_innerNodes] at hlt
    omega

/-! ### The maxima on all paths -/

/-- The finders differ at most in what is written while paths are searched. -/
def EqBesidePaths (k k₀ : Kruskal α) : Prop :=
  { k with pathMaxima := k₀.pathMaxima, jumps := k₀.jumps, stack := k₀.stack } = k₀

theorem EqBesidePaths.trans (h : k'.EqBesidePaths k) (h₀ : k.EqBesidePaths k₀) :
    k'.EqBesidePaths k₀ := by
  have hframe := congrArg (fun k : Kruskal α =>
    { k with pathMaxima := k₀.pathMaxima, jumps := k₀.jumps, stack := k₀.stack }) h
  exact hframe.trans h₀

theorem EqBesidePaths.sized (h : k.EqBesidePaths k₀) (hk₀ : k₀.Sized n)
    (hsquare : k.pathMaxima.Square n) (hjumps : k.jumps.size = n) : k.Sized n := by
  have hk : Sized n
      { k with pathMaxima := k₀.pathMaxima, jumps := k₀.jumps, stack := k₀.stack } :=
    h.symm ▸ hk₀
  exact ((hk.withPathMaxima hsquare).withJumps hjumps).withStack k.stack

theorem EqBesidePaths.listed (h : k.EqBesidePaths k₀) (hk₀ : k₀.Listed) : k.Listed := by
  have hk : Listed
      { k with pathMaxima := k₀.pathMaxima, jumps := k₀.jumps, stack := k₀.stack } :=
    h.symm ▸ hk₀
  exact hk

theorem EqBesidePaths.isRooted (h : k.EqBesidePaths k₀) (hk₀ : k₀.IsRooted n) : k.IsRooted n := by
  have hk : IsRooted n
      { k with pathMaxima := k₀.pathMaxima, jumps := k₀.jumps, stack := k₀.stack } :=
    h.symm ▸ hk₀
  exact ⟨hk.tree, hk.depth, hk.depth_lt⟩

variable [Scalar α]

theorem extendPath_spec {children : List ℕ} (g : GraphVar) (k : Kruskal α)
    (hsquare : k.pathMaxima.Square n) (hjumps : k.jumps.size = n) (hlt : ∀ x ∈ children, x < n)
    (hs : s < n) (hv : v ∉ children) :
    ∃ k', children.foldl (extendPath g s v) k = k' ∧
      k'.EqBesidePaths k ∧ k'.stack = children.reverse ++ k.stack ∧
      k'.pathMaxima.Square n ∧ k'.jumps.size = n ∧
      (∀ x, k'.jump x = if x ∈ children then v else k.jump x) ∧
      (∀ a b, k'.pathMaxima.entry a b Scalar.bottom =
        if a = s ∧ b ∈ children then
          Scalar.larger (k.pathMaxima.entry s v Scalar.bottom) (k.replaceableCost g v b)
        else k.pathMaxima.entry a b Scalar.bottom) := by
  induction children generalizing k with
  | nil => exact ⟨k, rfl, rfl, rfl, hsquare, hjumps, by simp, by simp⟩
  | cons c children ih =>
      obtain ⟨hvc, hv⟩ := List.ne_and_not_mem_of_not_mem_cons hv
      have hc := hlt c List.mem_cons_self
      have hjump : ∀ x, (extendPath g s v k c).jump x = if x = c then v else k.jump x := by
        intro x
        simp only [jump, extendPath, Array.getD_eq_getD_getElem?, Array.getElem?_setIfInBounds]
        by_cases hx : x = c
        · simp [hx, hjumps, hc]
        · simp [hx, Ne.symm hx]
      have hentry : ∀ a b, (extendPath g s v k c).pathMaxima.entry a b Scalar.bottom =
          if a = s ∧ b = c then
            Scalar.larger (k.pathMaxima.entry s v Scalar.bottom) (k.replaceableCost g v c)
          else k.pathMaxima.entry a b Scalar.bottom := fun a b => Table.entry_put hsquare hs hc a b
      obtain ⟨k', heq, hframe, hstack, hsquare', hjumps', hjump', hentry'⟩ :=
        ih (extendPath g s v k c) (hsquare.put _ _ _)
          ((Array.size_setIfInBounds ..).trans hjumps)
          (fun x hx => hlt x (List.mem_cons_of_mem c hx)) hv
      have hsame : ∀ b, (extendPath g s v k c).replaceableCost g v b = k.replaceableCost g v b :=
        fun _ => rfl
      refine ⟨k', heq, hframe.trans rfl, ?_, hsquare', hjumps', fun x => ?_, fun a b => ?_⟩
      · rw [hstack, List.reverse_cons, List.append_assoc]
        rfl
      · rw [hjump', hjump]
        grind
      · have hsource : (extendPath g s v k c).pathMaxima.entry s v Scalar.bottom =
            k.pathMaxima.entry s v Scalar.bottom := by
          rw [hentry, if_neg fun h => hvc h.2]
        rw [hentry', hsource, hentry, hsame]
        by_cases hbc : b = c
        · subst hbc
          by_cases has : a = s <;> simp [has]
        · simp [hbc]

/-- The paths from a source to the nodes found so far have their maxima. -/
structure Extending (n : ℕ) (g : GraphVar) (s : ℕ) (k₀ k : Kruskal α) (W : Finset ℕ) :
    Prop where
  frame : k.EqBesidePaths k₀
  square : k.pathMaxima.Square n
  jumps : k.jumps.size = n
  others : ∀ a b, a ≠ s →
    k.pathMaxima.entry a b Scalar.bottom = k₀.pathMaxima.entry a b Scalar.bottom
  entry_source : k.pathMaxima.entry s s Scalar.bottom = Scalar.bottom
  entry_eq : ∀ v ∈ W, v ≠ s → k.pathMaxima.entry s v Scalar.bottom =
    Scalar.larger (k.pathMaxima.entry s (k.jump v) Scalar.bottom)
      (k₀.replaceableCost g (k.jump v) v)

/-- The maxima of nodes next to a found one extend its maximum by one more edge. -/
theorem Extending.extend {W : Finset ℕ} {waiting children : List ℕ} {T : Finset (Sym2 ℕ)}
    (h : Exploring (innerNodes n) T s k.jump W (v :: waiting)) (hk : Extending n g s k₀ k W)
    (hnew : ∀ x ∈ children, x ∉ W) (hframe : k'.EqBesidePaths k)
    (hsquare : k'.pathMaxima.Square n) (hjumps : k'.jumps.size = n)
    (hjump : ∀ x, k'.jump x = if x ∈ children then v else k.jump x)
    (hentry : ∀ a b, k'.pathMaxima.entry a b Scalar.bottom =
      if a = s ∧ b ∈ children then
        Scalar.larger (k.pathMaxima.entry s v Scalar.bottom) (k.replaceableCost g v b)
      else k.pathMaxima.entry a b Scalar.bottom) :
    Extending n g s k₀ k' (W ∪ children.toFinset) := by
  have hcost : ∀ b, k.replaceableCost g v b = k₀.replaceableCost g v b := fun b =>
    (congrArg (fun k : Kruskal α => k.replaceableCost g v b) hk.frame :)
  have hold : ∀ x ∈ W,
      k'.pathMaxima.entry s x Scalar.bottom = k.pathMaxima.entry s x Scalar.bottom := by
    intro x hx
    rw [hentry, if_neg fun hc => hnew x hc.2 hx]
  refine ⟨hframe.trans hk.frame, hsquare, hjumps, fun a b ha => ?_,
    (hold s h.root_mem).trans hk.entry_source, fun x hx hxs => ?_⟩
  · rw [hentry, if_neg fun h => ha h.1]
    exact hk.others a b ha
  · obtain hx | hx := Finset.mem_union.mp hx
    · rw [hold x hx, hjump, if_neg fun hc => hnew x hc hx, hold _ (h.up_mem hx)]
      exact hk.entry_eq x hx hxs
    · have hx := List.mem_toFinset.mp hx
      rw [hjump, if_pos hx, hentry, if_pos ⟨rfl, hx⟩, hold v (h.found v List.mem_cons_self), hcost]

theorem pathStep_spec (hlisted : k₀.Listed)
    (htree : IsSpanningTree (innerNodes n) (innerEdges k₀.tree.edgeSet)) {W : Finset ℕ}
    {waiting : List ℕ} (hs : s < n) (hstack : k.stack = v :: waiting)
    (h : Exploring (innerNodes n) (innerEdges k₀.tree.edgeSet) s k.jump W (v :: waiting))
    (hk : Extending n g s k₀ k W) :
    ∃ k', ∃ children : List ℕ,
      pathStep g s k = some k' ∧ k'.stack = children.reverse ++ waiting ∧ children.Nodup ∧
        (∀ x, x ∈ children ↔ s(v, x) ∈ innerEdges k₀.tree.edgeSet ∧ x ≠ k.jump v) ∧
        (∀ x, k'.jump x = if x ∈ children then v else k.jump x) ∧
        ((∀ x ∈ children, x ∉ W) → Extending n g s k₀ k' (W ∪ children.toFinset)) := by
  have hneighbours : k.treeNeighbours v = k₀.treeNeighbours v :=
    (congrArg (fun k : Kruskal α => k.treeNeighbours v) hk.frame :)
  obtain ⟨hnodup, hchildren, hlt, hv⟩ :=
    hneighbours ▸ hlisted.neighbours htree v (k.jump v)
  obtain ⟨k', heq, hframe, hstack', hsquare, hjumps, hjump, hentry⟩ :=
    extendPath_spec g { k with stack := waiting } hk.square hk.jumps hlt hs hv
  have hframe' : k'.EqBesidePaths k := hframe.trans rfl
  refine ⟨k', _, ?_, hstack', hnodup, hchildren, hjump,
    fun hnew => hk.extend h hnew hframe' hsquare hjumps hjump hentry⟩
  rw [pathStep, hstack]
  exact congrArg some heq

/-- The finder before the tree is searched from a source. -/
def pathStart (k : Kruskal α) (s : ℕ) : Kruskal α :=
  startWalk
    { k with
      pathMaxima := k.pathMaxima.put s s Scalar.bottom
      jumps := k.jumps.setIfInBounds s s } s

theorem pathMaximaFrom_eq (g : GraphVar) (k : Kruskal α) (s : ℕ) :
    pathMaximaFrom g k s = iterate (pathStep g s) k.tree.order (k.pathStart s) := rfl

theorem walks_pathStep (g : GraphVar) (s : ℕ) :
    Walks (pathStep g s : Kruskal α → Option (Kruskal α)) (extendPath g s) := by
  intro k next hstep
  rw [pathStep] at hstep
  split at hstep
  next => cases hstep
  next v waiting _ => exact ⟨v, waiting, _, (Option.some.inj hstep).symm⟩

/-- What extending a path keeps, whatever waits, holds when the paths from a source are known. -/
theorem pathMaximaFrom_preserves {P : Kruskal α → Prop} (hstart : P (k.pathStart s))
    (hstack : ∀ k l, P k → P { k with stack := l })
    (hextend : ∀ v k x, P k → P (extendPath g s v k x)) : P (pathMaximaFrom g k s) :=
  (walks_pathStep g s).preserves hstart hstack hextend k.tree.order

theorem pathStart_spec (g : GraphVar) (hk : k.Sized n) (hs : s < n) :
    (k.pathStart s).Sized n ∧ (k.pathStart s).jump s = s ∧
      (∀ a b, a ≠ s → (k.pathStart s).pathMaxima.entry a b Scalar.bottom =
        k.pathMaxima.entry a b Scalar.bottom) ∧
      Extending n g s (k.pathStart s) (k.pathStart s) {s} := by
  have hsized : (k.pathStart s).Sized n :=
    ((hk.withPathMaxima (hk.pathMaxima.put _ _ _)).withJumps
      ((Array.size_setIfInBounds ..).trans hk.jumps)).startWalk s
  have hjump : (k.pathStart s).jump s = s := by
    have hlt : s < k.jumps.size := hk.jumps.symm ▸ hs
    simp [pathStart, startWalk, jump, hlt]
  have hentry : ∀ a b, (k.pathStart s).pathMaxima.entry a b Scalar.bottom =
      if a = s ∧ b = s then Scalar.bottom else k.pathMaxima.entry a b Scalar.bottom := fun a b =>
    Table.entry_put hk.pathMaxima hs hs a b
  refine ⟨hsized, hjump, fun a b ha => ?_, rfl, hsized.pathMaxima, hsized.jumps,
    fun _ _ _ => rfl, ?_, fun v hv hvs => ?_⟩
  · rw [hentry, if_neg fun h => ha h.1]
  · rw [hentry, if_pos ⟨rfl, rfl⟩]
  · exact absurd (Finset.mem_singleton.mp hv) hvs

/-- The search from a source visits every node once. -/
theorem pathMaximaFrom_search (g : GraphVar) (hk : k.Sized n) (hlisted : k.Listed)
    (htree : IsSpanningTree (innerNodes n) (innerEdges k.tree.edgeSet)) (hs : s ∈ innerNodes n) :
    VisitsOnce (innerNodes n) stack (pathStep g s) (k.pathStart s) (pathMaximaFrom g k s) ∧
      IsRootedTree (innerNodes n) (innerEdges k.tree.edgeSet) s (pathMaximaFrom g k s).jump ∧
      Extending n g s (k.pathStart s) (pathMaximaFrom g k s) (innerNodes n) := by
  have hsn := (mem_innerNodes.mp hs).2
  obtain ⟨-, hjump, -, hstart⟩ := pathStart_spec g hk hsn
  have hbound : (innerNodes n).card ≤ k.tree.order := by
    rw [card_innerNodes, hk.tree.order_eq]
    exact Nat.sub_le n 1
  have hlisted₀ : (k.pathStart s).Listed := hlisted
  have htree₀ : IsSpanningTree (innerNodes n) (innerEdges (k.pathStart s).tree.edgeSet) := htree
  obtain ⟨k', heq, hrest⟩ := Exploring.search (J := Extending n g s (k.pathStart s)) htree₀
    (fun _ hstack => by rw [pathStep, hstack])
    (fun k' v waiting W hstack h hJ => pathStep_spec hlisted₀ htree₀ hsn hstack h hJ) rfl hs hjump
    hstart hbound
  rw [pathMaximaFrom_eq, heq]
  exact hrest

/-- A walk from one node carries the values of the nodes along all paths from there. -/
theorem pathMaximaFrom_spec (g : GraphVar) (hk : k.Sized n) (hlisted : k.Listed)
    (htree : IsSpanningTree (innerNodes n) (innerEdges k.tree.edgeSet)) (hs : s ∈ innerNodes n) :
    ∃ k', pathMaximaFrom g k s = k' ∧
      k'.EqBesidePaths k ∧ k'.Sized n ∧
      (∀ a b, a ≠ s → k'.pathMaxima.entry a b Scalar.bottom =
        k.pathMaxima.entry a b Scalar.bottom) ∧
      GrowsFrom (innerNodes n) (innerEdges k.tree.edgeSet) s (k.replaceableCost g)
        fun v => k'.pathMaxima.entry s v Scalar.bottom := by
  obtain ⟨hsized, -, hothers, -⟩ := pathStart_spec g hk (mem_innerNodes.mp hs).2
  obtain ⟨-, hrooted, hkeeps⟩ := pathMaximaFrom_search g hk hlisted htree hs
  generalize pathMaximaFrom g k s = k' at hrooted hkeeps ⊢
  refine ⟨k', rfl, hkeeps.frame.trans rfl, hkeeps.frame.sized hsized hkeeps.square hkeeps.jumps,
    fun a b ha => ?_, k'.jump, hrooted, hkeeps.entry_source, hkeeps.entry_eq⟩
  rw [hkeeps.others a b ha, hothers a b ha]

/-- Walks from some nodes carry the values along all paths from there, and leave the other rows. -/
theorem foldl_pathMaximaFrom_spec (g : GraphVar) (hk : k.Sized n) (hlisted : k.Listed)
    (htree : IsSpanningTree (innerNodes n) (innerEdges k.tree.edgeSet)) {sources : List ℕ}
    (hsources : ∀ s ∈ sources, s ∈ innerNodes n) :
    ∃ k', sources.foldl (pathMaximaFrom g) k = k' ∧
      k'.EqBesidePaths k ∧ k'.Sized n ∧
      (∀ a b, a ∉ sources → k'.pathMaxima.entry a b Scalar.bottom =
        k.pathMaxima.entry a b Scalar.bottom) ∧
      ∀ a ∈ sources, GrowsFrom (innerNodes n) (innerEdges k.tree.edgeSet) a
        (k.replaceableCost g) fun b => k'.pathMaxima.entry a b Scalar.bottom := by
  induction sources generalizing k with
  | nil => exact ⟨k, rfl, rfl, hk, fun _ _ _ => rfl, by simp⟩
  | cons s sources ih =>
      obtain ⟨k₁, heq₁, hframe₁, hsized₁, hothers₁, hgrows₁⟩ :=
        pathMaximaFrom_spec g hk hlisted htree (hsources s List.mem_cons_self)
      have hedges : k₁.tree = k.tree := (congrArg Kruskal.tree hframe₁ :)
      have hcost : k₁.replaceableCost g = k.replaceableCost g :=
        (congrArg (replaceableCost g) hframe₁ :)
      obtain ⟨k', heq, hframe, hsized, hothers, hgrows⟩ :=
        ih hsized₁ (hframe₁.listed hlisted) (hedges ▸ htree)
          fun x hx => hsources x (List.mem_cons_of_mem s hx)
      rw [hedges, hcost] at hgrows
      refine ⟨k', by rw [List.foldl_cons, heq₁, heq], hframe.trans hframe₁, hsized,
        fun a b ha => ?_, fun a ha => ?_⟩
      · obtain ⟨has, ha⟩ := List.ne_and_not_mem_of_not_mem_cons ha
        rw [hothers a b ha, hothers₁ a b has]
      · by_cases hrest : a ∈ sources
        · exact hgrows a hrest
        · obtain rfl := (List.mem_cons.mp ha).resolve_right hrest
          simp only [hothers a _ hrest]
          exact hgrows₁

/-- The walks from all nodes carry the values of the nodes along all paths. -/
theorem computePathMaxima_spec (g : GraphVar) (hk : k.Sized n) (hlisted : k.Listed)
    (htree : IsSpanningTree (innerNodes n) (innerEdges k.tree.edgeSet)) :
    ∃ k', computePathMaxima g k = k' ∧
      k'.EqBesidePaths k ∧ k'.Sized n ∧
      ∀ a ∈ innerNodes n, GrowsFrom (innerNodes n) (innerEdges k.tree.edgeSet) a
        (k.replaceableCost g) fun b => k'.pathMaxima.entry a b Scalar.bottom := by
  have hsources : ∀ s, s ∈ List.range' 1 (n - 1) ↔ s ∈ innerNodes n := by
    intro s
    rw [List.mem_range'_1, mem_innerNodes, designated]
    omega
  obtain ⟨k', heq, hframe, hsized, -, hgrows⟩ := foldl_pathMaximaFrom_spec g hk hlisted htree
    fun s hs => (hsources s).mp hs
  refine ⟨k', ?_, hframe, hsized, fun a ha => hgrows a ((hsources a).mpr ha)⟩
  rw [computePathMaxima, hk.tree.order_eq, heq]

/-! ### Exact numbers -/

section Exact

variable {cost : Sym2 ℕ → ℚ} {k : Kruskal Exact}

open Classical in
/-- The cost of an edge that may be replaced; a mandatory edge is never replaced. -/
noncomputable def weight (g : GraphVar) (cost : Sym2 ℕ → ℚ) (e : Sym2 ℕ) : Exact :=
  if e ∈ g.mandatoryEdges then .bottom else .number (cost e)

theorem replaceableCost_eq (hg : g.IsSimple n) (hcosts : k.costs.Charges n cost) (ha : a < n)
    (hb : b < n) : k.replaceableCost g a b = weight g cost s(a, b) := by
  rw [replaceableCost, weight, hcosts.cost_eq a ha b hb]
  by_cases hM : g.isMandatory a b = true
  · rw [if_pos hM, if_pos (hg.mem_mandatoryEdges.mpr hM), Exact.bottom_eq]
  · rw [if_neg hM, if_neg fun h => hM (hg.mem_mandatoryEdges.mp h)]

/-- On exact numbers, the values of the nodes are the maxima on all paths. -/
theorem isPathMaximum_of_grows (hg : g.IsSimple n) (hcosts : k.costs.Charges n cost)
    {T : Finset (Sym2 ℕ)} {m : ℕ → Exact}
    (h : GrowsFrom (innerNodes n) T s (k.replaceableCost g) m) (hv : v ∈ innerNodes n) :
    IsPathMaximum T (weight g cost) s v (m v) := by
  exact h.isPathMaximum (fun a ha b hb =>
    replaceableCost_eq hg hcosts (mem_innerNodes.mp ha).2 (mem_innerNodes.mp hb).2) hv

end Exact

end Kruskal

end GraphInterval
