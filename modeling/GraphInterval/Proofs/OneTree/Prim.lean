import GraphInterval.OneTree.Prim
import GraphInterval.Proofs.OneTree.Kruskal
import GraphInterval.Proofs.OneTree.Sized
import GraphInterval.Proofs.TiedHeap.Map

/-!
# The one-tree grown from a node

The tree spans the nodes that were attached so far, and the heap holds the
nodes next to it, each with an edge of least value to the tree.  So the tree
reaches every inner node unless possible edges make no spanning tree.  With
exact numbers, attaching the cheapest node keeps the tree inside of a
candidate that costs no more than any given one, and the tree is a cheapest
one if there is a candidate at all.  If there is none because the mandatory
edges close a cycle, a tree is computed nevertheless.
-/

namespace GraphInterval

namespace Prim

open OneTree Growth

variable {α : Type} [Scalar α] {n : ℕ} {costs : Table α} {g : GraphVar}

/-! ### The sizes of the tables -/

/-- All tables are made for graphs of one order. -/
structure Sized (n : ℕ) (p : Prim α) : Prop where
  tree : p.tree.Sized n
  heap : p.heap.Valid n
  inTree : p.inTree.size = n
  parents : p.parents.size = n

variable [LawfulScalar α] {p : Prim α} {s : Growth α} {u v w : ℕ}

theorem sized_make (n : ℕ) : (make n : Prim α).Sized n :=
  ⟨sized_empty n, TiedHeap.valid_empty n, Array.size_replicate, Array.size_replicate⟩

theorem sized_restart (hp : p.Sized n) : p.restart.Sized n :=
  ⟨(clear_spec hp.tree).1, (TiedHeap.clear_spec hp.heap).1, Array.size_replicate.trans hp.inTree,
    hp.parents⟩

theorem edgeValue_self (hself : costs.Comparable) (g : GraphVar) (u v : ℕ) :
    edgeValue costs g u v ≤ edgeValue costs g u v := by
  rw [edgeValue]
  split
  · exact LawfulScalar.bottom_le_bottom
  · exact hself u v

theorem sized_offer (hs : s.finder.Sized n) (hself : costs.Comparable) (g : GraphVar) (u v : ℕ) :
    (offer costs g u s v).finder.Sized n := by
  rw [offer]
  split_ifs with hdesignated hfits hspans
  · exact hs
  · exact hs
  · exact hs
  · have hlt : v < n := hs.tree.order_eq ▸ Nat.lt_of_not_le hfits
    have hoffered := TiedHeap.insertOrDecrease_spec hs.heap hlt (edgeValue_self hself g u v)
    refine ⟨hs.tree, hoffered.valid, hs.inTree, ?_⟩
    dsimp only
    split
    · exact Array.size_setIfInBounds.trans hs.parents
    · exact hs.parents

theorem sized_addNode (hs : s.finder.Sized n) (hself : costs.Comparable) (g : GraphVar) (u : ℕ) :
    (addNode costs g s u).finder.Sized n := by
  apply List.foldlRecOn (motive := fun s : Growth α => s.finder.Sized n)
  · exact ⟨hs.tree, hs.heap, Array.size_setIfInBounds.trans hs.inTree, hs.parents⟩
  · exact fun s hs v _ => sized_offer hs hself g u v

theorem sized_step (hself : costs.Comparable) (g : GraphVar) {s' : Growth α}
    (hs : s.finder.Sized n) (hstep : step costs g s = some s') : s'.finder.Sized n := by
  rw [step] at hstep
  obtain ⟨u, heap, hpop, hpopped⟩ | ⟨heap, hpop, -⟩ := TiedHeap.popMin_spec hs.heap
  · rw [hpop] at hstep
    obtain rfl := Option.some.inj hstep
    apply sized_addNode _ hself
    exact ⟨hs.tree.addEdge _ _ _, hpopped.valid, hs.inTree, hs.parents⟩
  · rw [hpop] at hstep
    exact absurd hstep (by simp)

theorem sized_grow (hp : p.Sized n) (hself : costs.Comparable) (g : GraphVar) :
    (grow costs g p).finder.Sized n :=
  iterate_preserves (P := fun s : Growth α => s.finder.Sized n)
    (fun _ _ => sized_step hself g) _ _ (sized_addNode (sized_restart hp) hself g 1)

/-- A finder keeps its sizes in every computation. -/
theorem compute_sized (hp : p.Sized n) (hself : costs.Comparable) (g : GraphVar) :
    (compute costs g).wp (fun _ => Sized n) (fun _ => Sized n) p := by
  simp only [compute, Attempt.wp_bind, Attempt.wp_get, Attempt.wp_ite, Attempt.wp_set,
    Attempt.wp_throw, Attempt.wp_within]
  have hgrown := sized_grow hp hself g
  have hattached : ∀ tree : OneTree α, tree.Sized n →
      Sized n { (grow costs g p).finder with tree } := fun tree htree =>
    ⟨htree, hgrown.heap, hgrown.inTree, hgrown.parents⟩
  refine ⟨fun _ => hp, fun _ => ⟨fun _ => hgrown, fun _ => ⟨fun _ => hgrown, fun _ => ?_⟩⟩⟩
  apply Attempt.wp_mono (Kruskal.attachDesignated_sized hgrown.tree costs g)
  · exact fun _ => hattached
  · exact fun _ => hattached

/-! ### Reachable states -/

/-- The states of a finder for graphs of one order, after runs on any graphs. -/
inductive Reached (n : ℕ) : Prim α → Prop where
  | make : Reached n (make n)
  | compute {p : Prim α} {costs : Table α} (g : GraphVar) : costs.Comparable →
      Reached n p → Reached n ((compute costs g).after p)

theorem Reached.sized (hp : Reached n p) : p.Sized n := by
  induction hp with
  | make => exact sized_make n
  | compute g hself _ ih => exact Attempt.after_of_wp (compute_sized ih hself g)

/-! ### The nodes next to the tree -/

/-- The heap holds the nodes outside of a set with an offered edge, by their cheapest one. -/
structure Frontier (n : ℕ) (costs : Table α) (g : GraphVar) (W : Finset ℕ)
    (A : ℕ → ℕ → Prop) (p : Prim α) : Prop where
  sized : p.Sized n
  spans_iff : ∀ v, p.spans v = true ↔ v ∈ W
  contains_iff : ∀ v, p.heap.contains v = true ↔ v ∈ innerNodes n ∧ v ∉ W ∧ ∃ w, A w v
  parent : ∀ v, p.heap.contains v = true →
    A (p.parents.getD v 0) v ∧ p.heap.value v = edgeValue costs g (p.parents.getD v 0) v
  least : ∀ v, p.heap.contains v = true →
    ∀ w, A w v → p.heap.value v ≤ edgeValue costs g w v

variable {W : Finset ℕ} {A A' : ℕ → ℕ → Prop}

omit [LawfulScalar α] in
theorem Frontier.congr (hp : Frontier n costs g W A p) (hA : ∀ v ∈ innerNodes n, v ∉ W →
    ∀ w, A w v ↔ A' w v) : Frontier n costs g W A' p := by
  have hcontains : ∀ v, p.heap.contains v = true → ∀ w, A w v ↔ A' w v := fun v hv =>
    hA v ((hp.contains_iff v).mp hv).1 ((hp.contains_iff v).mp hv).2.1
  refine ⟨hp.sized, hp.spans_iff, fun v => ?_, fun v hv => ?_, fun v hv w hw =>
    hp.least v hv w ((hcontains v hv w).mpr hw)⟩
  · rw [hp.contains_iff]
    exact and_congr_right fun hv => and_congr_right fun hvW => exists_congr (hA v hv hvW)
  · obtain ⟨hparent, hvalue⟩ := hp.parent v hv
    exact ⟨(hcontains v hv _).mp hparent, hvalue⟩

/-- The parents after a node was offered an edge. -/
theorem getD_parents {parents : Array ℕ} (hv : v < parents.size) (changed : Bool) (x : ℕ) :
    (if changed then parents.setIfInBounds v u else parents).getD x 0 =
      if changed = true ∧ x = v then u else parents.getD x 0 := by
  by_cases hchanged : changed = true
  · simp only [hchanged, if_true, true_and, Array.getD_eq_getD_getElem?,
      Array.getElem?_setIfInBounds]
    by_cases hx : v = x
    · simp [hx ▸ hv, hx]
    · simp [hx, Ne.symm hx]
  · rw [if_neg hchanged, if_neg fun h => hchanged h.1]

/-- A node outside of the tree was offered an edge. -/
theorem Frontier.offered (hself : costs.Comparable) (hp : Frontier n costs g W A p)
    (hv : v ∈ innerNodes n) (hvW : v ∉ W)
    {changed : Bool} {heap : TiedHeap α}
    (ho : TiedHeap.Offered n p.heap v (edgeValue costs g u v) changed heap) :
    Frontier n costs g W (fun w x => A w x ∨ (w = u ∧ x = v))
      { p with
        heap
        parents := if changed then p.parents.setIfInBounds v u else p.parents } := by
  have hvn : v < p.parents.size := hp.sized.parents.symm ▸ (mem_innerNodes.mp hv).2
  have hsize : (if changed then p.parents.setIfInBounds v u else p.parents).size = n := by
    split
    · exact Array.size_setIfInBounds.trans hp.sized.parents
    · exact hp.sized.parents
  have hparents := getD_parents (u := u) hvn changed
  refine ⟨⟨hp.sized.tree, ho.valid, hp.sized.inTree, hsize⟩, hp.spans_iff, fun x => ?_,
    fun x hx => ?_, fun x hx w hw => ?_⟩
  · rw [ho.contains_iff, hp.contains_iff]
    constructor
    · rintro (⟨hx, hxW, w, hw⟩ | rfl)
      · exact ⟨hx, hxW, w, .inl hw⟩
      · exact ⟨hv, hvW, u, .inr ⟨rfl, rfl⟩⟩
    · rintro ⟨hx, hxW, w, hw | ⟨-, hxv⟩⟩
      · exact .inl ⟨hx, hxW, w, hw⟩
      · exact .inr hxv
  · rw [hparents, ho.value_eq]
    by_cases hkept : changed = true ∧ x = v
    · rw [if_pos hkept, if_pos hkept, hkept.2]
      exact ⟨.inr ⟨rfl, rfl⟩, rfl⟩
    · rw [if_neg hkept, if_neg hkept]
      obtain ⟨hparent, hvalue⟩ := hp.parent x (ho.contains_of_kept hx hkept)
      exact ⟨.inl hparent, hvalue⟩
  · obtain hw | ⟨rfl, rfl⟩ := hw
    · have hxW : x ∈ innerNodes n ∧ x ∉ W := by
        obtain hx | rfl := (ho.contains_iff x).mp hx
        · exact ⟨((hp.contains_iff x).mp hx).1, ((hp.contains_iff x).mp hx).2.1⟩
        · exact ⟨hv, hvW⟩
      have hin := (hp.contains_iff x).mpr ⟨hxW.1, hxW.2, w, hw⟩
      exact Ranked.le_trans
        (ho.value_le_old hp.sized.heap.comparable (edgeValue_self hself g u v) hin)
        (hp.least x hin w hw)
    · exact ho.value_le (edgeValue_self hself g _ _)

/-- One more edge is offered. -/
theorem Frontier.offer (hcosts : costs.Square n) (hself : costs.Comparable)
    (hs : Frontier n costs g W A s.finder)
    (hcovered : s.covered = true) (hu : u < n) (hv : v < n) :
    Frontier n costs g W (fun w x => A w x ∨ (w = u ∧ x = v)) (offer costs g u s v).finder ∧
      (Growth.offer costs g u s v).covered = true ∧
      (Growth.offer costs g u s v).finder.tree = s.finder.tree := by
  have hskip : v ∉ innerNodes n ∨ v ∈ W →
      Frontier n costs g W (fun w x => A w x ∨ (w = u ∧ x = v)) s.finder := by
    intro hv
    apply hs.congr
    rintro x hx hxW w
    refine (or_iff_left ?_).symm
    rintro ⟨-, rfl⟩
    exact hv.elim (fun h => h hx) hxW
  rw [Growth.offer]
  split_ifs with hdesignated hfits hspans
  · exact ⟨hskip (.inl fun h => (mem_innerNodes.mp h).1 hdesignated), hcovered, rfl⟩
  · rw [hs.sized.tree.order_eq] at hfits
    omega
  · exact ⟨hskip (.inr ((hs.spans_iff v).mp hspans)), hcovered, rfl⟩
  · have hinner : v ∈ innerNodes n := mem_innerNodes.mpr ⟨hdesignated, hv⟩
    have hvW : v ∉ W := fun h => hspans ((hs.spans_iff v).mpr h)
    have ho := TiedHeap.insertOrDecrease_spec hs.sized.heap hv (edgeValue_self hself g u v)
    refine ⟨hs.offered hself hinner hvW ho, ?_, rfl⟩
    simp [hcovered, hcosts.covers hu hv]

/-- The edges from a new tree node to a list of nodes are offered. -/
theorem Frontier.offers (hcosts : costs.Square n) (hself : costs.Comparable) (hu : u < n)
    {nodes : List ℕ}
    (hnodes : ∀ v ∈ nodes, v < n) (hs : Frontier n costs g W A s.finder)
    (hcovered : s.covered = true) :
    Frontier n costs g W (fun w x => A w x ∨ (w = u ∧ x ∈ nodes))
        (nodes.foldl (Growth.offer costs g u) s).finder ∧
      (nodes.foldl (Growth.offer costs g u) s).covered = true ∧
      (nodes.foldl (Growth.offer costs g u) s).finder.tree = s.finder.tree := by
  induction nodes generalizing s A with
  | nil =>
      refine ⟨hs.congr fun x _ _ w => ?_, hcovered, rfl⟩
      rw [List.mem_nil_iff, and_false, or_false]
  | cons v nodes ih =>
      obtain ⟨hs', hcovered', htree⟩ :=
        hs.offer hcosts hself hcovered hu (hnodes v List.mem_cons_self)
      obtain ⟨hrest, hcovered'', htree'⟩ :=
        ih (fun v hv => hnodes v (List.mem_cons_of_mem _ hv)) hs' hcovered'
      refine ⟨hrest.congr fun x _ _ w => ?_, hcovered'', htree'.trans htree⟩
      rw [List.mem_cons, or_assoc, ← and_or_left]

/-- The edges that lead out of the tree. -/
def Leaving (g : GraphVar) (W : Finset ℕ) (w v : ℕ) : Prop := w ∈ W ∧ g.isPotential w v = true

/-- A node becomes one of the tree, and its edges are offered. -/
theorem Frontier.addNode (hcosts : costs.Square n) (hself : costs.Comparable)
    (hg : g.IsUndirected n) (hu : u < n)
    (hs : Frontier n costs g (insert u W) (Leaving g W)
      { s.finder with inTree := s.finder.inTree.setIfInBounds u true })
    (hcovered : s.covered = true) :
    Frontier n costs g (insert u W) (Leaving g (insert u W)) (addNode costs g s u).finder ∧
      (Growth.addNode costs g s u).covered = true ∧
      (Growth.addNode costs g s u).finder.tree = s.finder.tree := by
  have hmem : ∀ v, v ∈ (g.upper.successors u).toList ↔ g.isPotential u v = true := fun v =>
    Graph.mem_successors hg.valid.upper
  obtain ⟨hs', hcovered', htree⟩ := Frontier.offers hcosts hself hu
    (fun v hv => (hg.lt_of_isPotential ((hmem v).mp hv)).2)
    (s := { s with finder := { s.finder with inTree := s.finder.inTree.setIfInBounds u true } })
    hs hcovered
  refine ⟨hs'.congr fun v _ _ w => ?_, hcovered', htree⟩
  rw [hmem, Leaving, Leaving, Finset.mem_insert]
  constructor
  · rintro (⟨hw, hwv⟩ | ⟨rfl, hwv⟩)
    · exact ⟨.inr hw, hwv⟩
    · exact ⟨.inl rfl, hwv⟩
  · rintro ⟨rfl | hw, hwv⟩
    · exact .inr ⟨rfl, hwv⟩
    · exact .inl ⟨hw, hwv⟩

/-! ### The growth of the tree -/

/-- The tree spans a set of nodes by possible edges. -/
structure Growing (n : ℕ) (costs : Table α) (g : GraphVar) (W : Finset ℕ) (s : Growth α) :
    Prop where
  frontier : Frontier n costs g W (Leaving g W) s.finder
  covered : s.covered = true
  recorded : s.finder.tree.Recorded n costs
  spanning : IsSpanningTree W s.finder.tree.edgeSet
  rooted : 1 ∈ W
  inner : W ⊆ innerNodes n
  possible : ∀ e ∈ s.finder.tree.edgeSet, e ∈ g.possibleEdges

/-- A node was attached by an edge of least value. -/
structure Grown (n : ℕ) (costs : Table α) (g : GraphVar) (W : Finset ℕ) (s : Growth α) (a b : ℕ)
    (s' : Growth α) : Prop where
  tail : a ∈ W
  head : b ∈ innerNodes n
  fresh : b ∉ W
  possible : g.isPotential a b = true
  least : ∀ x ∈ W, ∀ y ∈ innerNodes n, y ∉ W → g.isPotential x y = true →
    edgeValue costs g a b ≤ edgeValue costs g x y
  edgeSet_eq : s'.finder.tree.edgeSet = insert s(a, b) s.finder.tree.edgeSet
  growing : Growing n costs g (insert b W) s'

variable {a b x y : ℕ} {s' : Growth α}

omit [LawfulScalar α] in
theorem card_edges (hs : Growing n costs g W s) : s.finder.tree.edges.size + 1 = W.card := by
  rw [← hs.recorded.card_edgeSet]
  exact (hs.spanning.forest.isSpanningTree_iff hs.spanning.inside ⟨_, hs.rooted⟩).mp hs.spanning

theorem Growing.attach (hcosts : costs.Square n) (hself : costs.Comparable) (hg : g.IsUndirected n)
    (hs : Growing n costs g W s) (ha : a ∈ W) (hb : b ∈ innerNodes n) (hbW : b ∉ W)
    (hab : g.isPotential a b = true) (s' : Growth α)
    (hf : Frontier n costs g (insert b W) (Leaving g W)
      { s'.finder with inTree := s'.finder.inTree.setIfInBounds b true })
    (hcovered : s'.covered = true)
    (htree : s'.finder.tree = s.finder.tree.addEdge a b (costs.cost a b)) :
    (addNode costs g s' b).finder.tree.edgeSet = insert s(a, b) s.finder.tree.edgeSet ∧
      Growing n costs g (insert b W) (addNode costs g s' b) := by
  have han := (mem_innerNodes.mp (hs.inner ha)).2
  have hbn := (mem_innerNodes.mp hb).2
  obtain ⟨hf', hcovered', htree'⟩ := hf.addNode hcosts hself hg hbn hcovered
  have hnew : s(a, b) ∉ s.finder.tree.edgeSet := fun h => hbW (hs.spanning.inside a b h).2
  have hset : (addNode costs g s' b).finder.tree.edgeSet =
      insert s(a, b) s.finder.tree.edgeSet := by
    rw [htree', htree]
    exact edgeSet_addEdge _ _ _ _
  refine ⟨hset, hf', hcovered', ?_, ?_, Finset.mem_insert_of_mem hs.rooted,
    Finset.insert_subset hb hs.inner, ?_⟩
  · rw [htree', htree]
    exact hs.recorded.addEdge han hbn (fun heq => hbW (heq ▸ ha)) hnew
  · rw [hset]
    exact hs.spanning.insert_leaf hbW ha
  · rw [hset]
    intro e he
    obtain rfl | he := Finset.mem_insert.mp he
    · exact hg.mem_possibleEdges.mpr hab
    · exact hs.possible e he

omit [LawfulScalar α] [Scalar α] in
theorem spans_setIfInBounds (hu : u < p.inTree.size) (v : ℕ) :
    ({ p with inTree := p.inTree.setIfInBounds u true } : Prim α).spans v = true ↔
      v = u ∨ p.spans v = true := by
  simp only [spans, Array.getD_eq_getD_getElem?, Array.getElem?_setIfInBounds]
  by_cases hv : u = v
  · simp [hv ▸ hu, hv]
  · simp [hv, Ne.symm hv]

omit [LawfulScalar α] in
/-- A node leaves the heap for the tree. -/
theorem Frontier.popped (hp : Frontier n costs g W A p) (hu : u < n) {heap : TiedHeap α}
    (hpopped : TiedHeap.Popped n p.heap u heap) {tree : OneTree α} (htree : tree.Sized n) :
    Frontier n costs g (insert u W) A
      { p with heap, tree, inTree := p.inTree.setIfInBounds u true } := by
  have hold : ∀ v, heap.contains v = true → p.heap.contains v = true := fun v hv =>
    ((hpopped.contains_iff v).mp hv).1
  refine ⟨⟨htree, hpopped.valid, Array.size_setIfInBounds.trans hp.sized.inTree, hp.sized.parents⟩,
    fun v => ?_, fun v => ?_, fun v hv => ?_, fun v hv => ?_⟩
  · rw [Finset.mem_insert, ← hp.spans_iff]
    exact spans_setIfInBounds (hp.sized.inTree.symm ▸ hu) v
  · rw [hpopped.contains_iff, hp.contains_iff, Finset.mem_insert, not_or]
    constructor
    · rintro ⟨⟨hv, hvW, hw⟩, hne⟩
      exact ⟨hv, ⟨hne, hvW⟩, hw⟩
    · rintro ⟨hv, ⟨hne, hvW⟩, hw⟩
      exact ⟨⟨hv, hvW, hw⟩, hne⟩
  · rw [hpopped.value_eq]
    exact hp.parent v (hold v hv)
  · rw [hpopped.value_eq]
    exact hp.least v (hold v hv)

/-- The cheapest node next to the tree is attached. -/
theorem Growing.step (hcosts : costs.Square n) (hself : costs.Comparable) (hg : g.IsUndirected n)
    (hs : Growing n costs g W s) (hstep : Growth.step costs g s = some s') :
    ∃ a b, Grown n costs g W s a b s' := by
  have hf := hs.frontier
  rw [Growth.step] at hstep
  obtain ⟨u, heap, hpop, hpopped⟩ | ⟨heap, hpop, -⟩ := TiedHeap.popMin_spec hf.sized.heap
  · rw [hpop] at hstep
    obtain rfl := Option.some.inj hstep
    obtain ⟨hu, huW, -⟩ := (hf.contains_iff u).mp hpopped.contained
    obtain ⟨⟨ha, hab⟩, hvalue⟩ := hf.parent u hpopped.contained
    have hnonempty := hf.sized.heap.tallied.isEmpty_eq_false hf.sized.heap.indexed
      hpopped.contained
    have hun := (mem_innerNodes.mp hu).2
    have hcovers := hcosts.covers (mem_innerNodes.mp (hs.inner ha)).2 hun
    let parent := s.finder.parents.getD u 0
    let tree := s.finder.tree.addEdge parent u (costs.cost parent u)
    have hcovered : (s.covered && !s.finder.heap.isEmpty && costs.covers parent u) = true := by
      simp only [hs.covered, hnonempty, hcovers, parent, Bool.not_false, Bool.and_true]
    obtain ⟨hset, hgrowing⟩ := hs.attach hcosts hself hg ha hu huW hab
      { finder := { s.finder with heap, tree }, covered := _ }
      (hf.popped hun hpopped (hf.sized.tree.addEdge _ _ _)) hcovered rfl
    refine ⟨parent, u, ha, hu, huW, hab, fun x hx y hy hyW hxy => ?_, hset, hgrowing⟩
    have hin := (hf.contains_iff y).mpr ⟨hy, hyW, x, hx, hxy⟩
    rw [← hvalue]
    exact Ranked.le_trans (hpopped.least y hin) (hf.least y hin x ⟨hx, hxy⟩)
  · rw [hpop] at hstep
    exact absurd hstep (by simp)

/-- Without a node next to it, the tree is complete, or possible edges make no spanning tree. -/
theorem Growing.finished (hg : g.IsSimple n) (hs : Growing n costs g W s)
    (hstep : Growth.step costs g s = none) {S : Finset (Sym2 ℕ)}
    (hS : IsSpanningTree (innerNodes n) S) (hpossible : ∀ e ∈ S, e ∈ g.possibleEdges) :
    W = innerNodes n := by
  have hf := hs.frontier
  rw [Growth.step] at hstep
  obtain ⟨u, heap, hpop, hpopped⟩ | ⟨heap, hpop, -, hnone⟩ := TiedHeap.popMin_spec hf.sized.heap
  · rw [hpop] at hstep
    exact absurd hstep (by simp)
  · apply Finset.Subset.antisymm hs.inner
    intro v hv
    apply (hS.joined 1 (hs.inner hs.rooted) v hv).closed (A := (· ∈ W)) _ hs.rooted
    intro x y hxy hx
    by_contra hy
    have hpotential := hg.mem_possibleEdges.mp (hpossible _ hxy)
    have hin := (hf.contains_iff y).mpr ⟨(hS.inside x y hxy).2, hy, x, hx, hpotential⟩
    exact absurd ((hnone y).symm.trans hin) (by simp)

/-! ### The computed one-tree -/

/-- The tree starts with one node. -/
theorem growing_start (hn : 2 ≤ n) (hp : p.Sized n) (hcosts : costs.Square n)
    (hself : costs.Comparable) (hg : g.IsUndirected n) :
    Growing n costs g (insert 1 ∅) (addNode costs g { finder := p.restart, covered := true } 1) ∧
      (addNode costs g { finder := p.restart, covered := true } 1).finder.tree.edgeSet = ∅ := by
  have hr := sized_restart hp
  obtain ⟨hrecorded, hempty⟩ := recorded_clear costs hp.tree
  obtain ⟨-, hnone⟩ := TiedHeap.clear_spec hp.heap
  have hvacant : ∀ {v}, p.restart.heap.contains v ≠ true := by
    intro v hv
    exact absurd ((hnone v).symm.trans hv) (by simp)
  have hfrontier : Frontier n costs g (insert 1 ∅) (Leaving g ∅)
      { p.restart with inTree := p.restart.inTree.setIfInBounds 1 true } := by
    refine ⟨⟨hr.tree, hr.heap, Array.size_setIfInBounds.trans hr.inTree, hr.parents⟩, fun v => ?_,
      fun v => iff_of_false hvacant ?_, fun v hv => absurd hv hvacant,
      fun v hv => absurd hv hvacant⟩
    · have hspans : p.restart.spans v = false := by
        simp only [spans, restart, Array.getD_eq_getD_getElem?, Array.getElem?_replicate]
        split <;> rfl
      have hone := spans_setIfInBounds (p := p.restart) (u := 1) (by rw [hr.inTree]; omega) v
      rw [hspans] at hone
      rw [Finset.mem_insert, hone]
      simp
    · rintro ⟨-, -, w, hw, -⟩
      exact Finset.notMem_empty w hw
  obtain ⟨hf, hcovered, htree⟩ := Frontier.addNode hcosts hself hg (by omega)
    (s := { finder := p.restart, covered := true }) hfrontier rfl
  have hset : (addNode costs g { finder := p.restart, covered := true } 1).finder.tree.edgeSet =
      ∅ := by
    rw [htree]
    exact hempty
  refine ⟨⟨hf, hcovered, ?_, ?_, Finset.mem_insert_self _ _, ?_, ?_⟩, hset⟩
  · rw [htree]
    exact hrecorded
  · rw [hset, insert_empty_eq]
    exact IsSpanningTree.singleton 1
  · rw [insert_empty_eq, Finset.singleton_subset_iff, mem_innerNodes, designated]
    omega
  · rw [hset]
    exact fun e he => absurd he (Finset.notMem_empty e)

/-- The tree grows until no node is next to it. -/
theorem grow_spec (hn : 2 ≤ n) (hp : p.Sized n) (hcosts : costs.Square n)
    (hself : costs.Comparable) (hg : g.IsUndirected n) :
    (∃ W, Growing n costs g W (grow costs g p)) ∧ step costs g (grow costs g p) = none := by
  have hstep : ∀ s s', (∃ W, Growing n costs g W s) → step costs g s = some s' →
      (∃ W, Growing n costs g W s') ∧
        n - 1 - s'.finder.tree.edges.size < n - 1 - s.finder.tree.edges.size := by
    rintro s s' ⟨W, hs⟩ hstep
    obtain ⟨a, b, hgrown⟩ := hs.step hcosts hself hg hstep
    have hcard := card_edges hs
    have hcard' := card_edges hgrown.growing
    have hle := Finset.card_le_card hgrown.growing.inner
    rw [Finset.card_insert_of_notMem hgrown.fresh] at hcard' hle
    rw [card_innerNodes] at hle
    exact ⟨⟨_, hgrown.growing⟩, by omega⟩
  have hstart := (growing_start hn hp hcosts hself hg).1
  rw [grow, hp.tree.order_eq]
  refine ⟨iterate_preserves (fun s s' hs h => (hstep s s' hs h).1) n _ ⟨_, hstart⟩,
    step_iterate_eq_none hstep n _ ⟨_, hstart⟩ ?_⟩
  omega

/-- A computation grows a tree, and attaches the designated node if it spans the others. -/
theorem compute_phases (hn : 2 ≤ n) (hp : p.Sized n) (hcosts : costs.Square n)
    (hself : costs.Comparable) (hg : g.IsUndirected n) {Q : OneTree α → Prop} {E : Failure → Prop}
    (hattach : Growing n costs g (innerNodes n) (grow costs g p) →
      (attachDesignated costs g).wp (fun _ => Q) (fun failure _ => E failure)
        (grow costs g p).finder.tree) :
    (compute costs g).wp (fun _ p' => Q p'.tree)
      (fun failure _ => E failure ∨ failure = .conflict detector ∧
        (grow costs g p).finder.tree.edges.size + 2 ≠ n) p := by
  obtain ⟨⟨W, hs⟩, -⟩ := grow_spec hn hp hcosts hself hg
  have hcard := card_edges hs
  have hcovered := hs.covered
  simp only [compute, Attempt.wp_bind, Attempt.wp_get, Attempt.wp_ite, Attempt.wp_set,
    Attempt.wp_throw, Attempt.wp_within, hp.tree.order_eq, hg.order_eq, hcovered]
  refine ⟨fun h => by omega, fun _ => ⟨fun h => absurd h (by simp), fun _ =>
    ⟨fun hsize => .inr ⟨trivial, hsize⟩, fun hsize => ?_⟩⟩⟩
  have hW : W = innerNodes n := by
    apply Finset.eq_of_subset_of_card_le hs.inner
    rw [card_innerNodes]
    omega
  exact Attempt.wp_mono (hattach (hW ▸ hs)) (fun _ _ h => h) fun _ _ h => .inl h

/-- With any costs, a spanning tree is grown and becomes a one-tree, or possible edges make none
that has all mandatory edges of the designated node. -/
theorem compute_grown (hn : 2 ≤ n) (hp : p.Sized n) (hcosts : costs.Square n)
    (hself : costs.Comparable) (hg : g.IsSimple n) :
    (compute costs g).wp
      (fun _ p' => Growing n costs g (innerNodes n) (grow costs g p) ∧
        Attached n costs g (grow costs g p).finder.tree p'.tree)
      (fun failure _ => failure = .conflict detector ∧
        ∀ H, ¬ Candidate (IsOneTree n) (outerMandatory g) g.possibleEdges H) p := by
  obtain ⟨⟨W, hs⟩, hlast⟩ := grow_spec hn hp hcosts hself hg.isUndirected
  have hcard := card_edges hs
  refine Attempt.wp_mono (compute_phases
    (Q := fun t => Growing n costs g (innerNodes n) (grow costs g p) ∧
      Attached n costs g (grow costs g p).finder.tree t)
    hn hp hcosts hself hg.isUndirected fun hgrown =>
      Attempt.wp_mono (attachDesignated_wp (by omega) hcosts hg hgrown.recorded
        (outerEdges_eq_empty hgrown.spanning)) (fun _ _ h => ⟨hgrown, h⟩) fun _ _ h => h)
    (fun _ _ h => h) ?_
  rintro failure _ (h | ⟨hfailure, hsize⟩)
  · exact h
  · refine ⟨hfailure, fun H hH => ?_⟩
    have hW := hs.finished hg hlast hH.base.inner fun e he =>
      hH.possible e (mem_innerEdges.mp he).1
    rw [hW, card_innerNodes] at hcard
    omega

/-! ### Exact numbers -/

section Exact

variable {cost : Sym2 ℕ → ℚ} {costs : Table Exact} {p : Prim Exact} {s s' : Growth Exact}

/-- A spanning tree of possible edges that has all mandatory ones. -/
def InnerCandidate (n : ℕ) (g : GraphVar) : Finset (Sym2 ℕ) → Prop :=
  Candidate (IsSpanningTree (innerNodes n)) (innerMandatory g) g.possibleEdges

/-- The edges are part of a candidate at no extra cost. -/
def Extendable (n : ℕ) (cost : Sym2 ℕ → ℚ) (g : GraphVar) (T : Finset (Sym2 ℕ)) : Prop :=
  ∀ S, InnerCandidate n g S →
    ∃ R, InnerCandidate n g R ∧ T ⊆ R ∧ totalCost cost R ≤ totalCost cost S

/-- An optional edge of least value is no more expensive than any other, and
then none is mandatory. -/
theorem edgeValue_le (hcosts : costs.Charges n cost) (ha : a < n) (hb : b < n) (hx : x < n)
    (hy : y < n) (hle : edgeValue costs g a b ≤ edgeValue costs g x y)
    (hab : g.isMandatory a b = false) :
    g.isMandatory x y = false ∧ cost s(a, b) ≤ cost s(x, y) := by
  rw [edgeValue, edgeValue, hab, hcosts.cost_eq a ha b hb, hcosts.cost_eq x hx y hy] at hle
  cases hxy : g.isMandatory x y with
  | true =>
      rw [hxy] at hle
      exact absurd hle (by simp [Exact.le_iff_not_lt])
  | false =>
      rw [hxy] at hle
      exact ⟨rfl, Exact.number_le_number.mp hle⟩

/-- A candidate has the cheapest edge that leaves the tree, or gets it for another one. -/
theorem extend_candidate (hcosts : costs.Charges n cost) (hg : g.IsSimple n) {W : Finset ℕ}
    {T R : Finset (Sym2 ℕ)} (hinner : W ⊆ innerNodes n)
    (hT : ∀ x y, s(x, y) ∈ T → x ∈ W ∧ y ∈ W) (hR : InnerCandidate n g R) (hTR : T ⊆ R)
    (ha : a ∈ W) (hb : b ∈ innerNodes n) (hbW : b ∉ W) (hab : g.isPotential a b = true)
    (hleast : ∀ x ∈ W, ∀ y ∈ innerNodes n, y ∉ W → g.isPotential x y = true →
      edgeValue costs g a b ≤ edgeValue costs g x y) :
    ∃ R', InnerCandidate n g R' ∧ insert s(a, b) T ⊆ R' ∧ totalCost cost R' ≤ totalCost cost R := by
  by_cases hin : s(a, b) ∈ R
  · exact ⟨R, hR, Finset.insert_subset hin hTR, le_rfl⟩
  · have hmandatory : g.isMandatory a b = false := by
      rw [Bool.eq_false_iff]
      exact fun h => hin (hR.mandatory _ ⟨hg.mem_mandatoryEdges.mpr h,
        not_mem_inner (hinner ha) hb⟩)
    obtain ⟨x, y, hxy, hx, hy, hapart⟩ :=
      hR.base.exists_exchange_crossing (A := (· ∈ W)) (hinner ha) hb ha hbW
    obtain ⟨-, hyn⟩ := hR.base.inside x y hxy
    obtain ⟨hmandatory', hle⟩ := edgeValue_le hcosts (mem_innerNodes.mp (hinner ha)).2
      (mem_innerNodes.mp hb).2 (mem_innerNodes.mp (hinner hx)).2 (mem_innerNodes.mp hyn).2
      (hleast x hx y hyn hy (hg.mem_possibleEdges.mp (hR.possible _ hxy))) hmandatory
    have hoptional : s(x, y) ∉ innerMandatory g := fun h =>
      absurd (hmandatory'.symm.trans (hg.mem_mandatoryEdges.mp h.1)) (by simp)
    refine ⟨_, hR.replace hoptional (hg.mem_possibleEdges.mpr hab)
      (hR.base.exchange hxy (hinner ha) hb hapart), ?_, ?_⟩
    · apply Finset.insert_subset_insert
      intro e he
      refine Finset.mem_erase.mpr ⟨?_, hTR he⟩
      rintro rfl
      exact hy (hT x y he).2
    · rw [totalCost_exchange hxy hin]
      linarith

/-- The tree stays part of a candidate at no extra cost. -/
theorem Grown.extendable (hcosts : costs.Charges n cost) (hg : g.IsSimple n)
    (hs : Growing n costs g W s) (h : Grown n costs g W s a b s')
    (hT : Extendable n cost g s.finder.tree.edgeSet) :
    Extendable n cost g s'.finder.tree.edgeSet := by
  intro S hS
  obtain ⟨R, hR, hTR, hle⟩ := hT S hS
  obtain ⟨R', hR', hTR', hle'⟩ := extend_candidate hcosts hg hs.inner hs.spanning.inside hR hTR
    h.tail h.head h.fresh h.possible h.least
  rw [h.edgeSet_eq]
  exact ⟨R', hR', hTR', hle'.trans hle⟩

theorem extendable_grow (hn : 2 ≤ n) (hp : p.Sized n) (hcosts : costs.Charges n cost)
    (hg : g.IsSimple n) : Extendable n cost g (grow costs g p).finder.tree.edgeSet := by
  have hself := costs.comparable_exact
  obtain ⟨hstart, hempty⟩ := growing_start hn hp hcosts.square hself hg.isUndirected
  refine (iterate_preserves (P := fun s : Growth Exact =>
    (∃ W, Growing n costs g W s) ∧ Extendable n cost g s.finder.tree.edgeSet) ?_ _ _
    ⟨⟨_, hstart⟩, ?_⟩).2
  · rintro s s' ⟨⟨W, hs⟩, hT⟩ hstep
    obtain ⟨a, b, hgrown⟩ := hs.step hcosts.square hself hg.isUndirected hstep
    exact ⟨⟨_, hgrown.growing⟩, hgrown.extendable hcosts hg hs hT⟩
  · rw [hempty]
    exact fun S hS => ⟨S, hS, Finset.empty_subset S, le_rfl⟩

/-- A complete tree is a cheapest candidate. -/
theorem isCheapest_of_extendable {T R : Finset (Sym2 ℕ)} (hT : IsSpanningTree (innerNodes n) T)
    (h : Extendable n cost g T) (hR : InnerCandidate n g R) :
    IsCheapest (IsSpanningTree (innerNodes n)) (innerMandatory g) g.possibleEdges cost T := by
  have hwhole : ∀ S, InnerCandidate n g S → InnerCandidate n g T ∧
      totalCost cost T ≤ totalCost cost S := by
    intro S hS
    obtain ⟨R, hR, hsub, hle⟩ := h S hS
    rw [hR.base.eq_of_subset hT hsub]
    exact ⟨hR, hle⟩
  exact ⟨(hwhole R hR).1, fun S hS => (hwhole S hS).2⟩

theorem innerCandidate_of_oneTree {H : Finset (Sym2 ℕ)}
    (hH : Candidate (IsOneTree n) g.mandatoryEdges g.possibleEdges H) :
    InnerCandidate n g (innerEdges H) :=
  ⟨hH.base.inner, fun e he => mem_innerEdges.mpr ⟨hH.mandatory e he.1, he.2⟩,
    fun e he => hH.possible e (mem_innerEdges.mp he).1⟩

/-- On exact numbers, the one-tree is a cheapest one unless there is none. -/
theorem compute_wp (hn : 2 ≤ n) (hp : p.Sized n) (hcosts : costs.Charges n cost)
    (hg : g.IsSimple n) :
    (compute costs g).wp
      (fun _ p' => p'.tree.Represents n cost ∧
        ∀ H, Candidate (IsOneTree n) g.mandatoryEdges g.possibleEdges H →
          IsCheapest (IsOneTree n) g.mandatoryEdges g.possibleEdges cost p'.tree.edgeSet)
      (fun failure _ => failure = .conflict detector ∧
        ∀ H, ¬ Candidate (IsOneTree n) g.mandatoryEdges g.possibleEdges H) p := by
  refine Attempt.wp_mono (compute_grown hn hp hcosts.square costs.comparable_exact hg) ?_
    fun _ _ h => ⟨h.1, fun H hH => h.2 H (hH.mono fun e he => he.1)⟩
  rintro _ p' ⟨hs, hattached⟩
  refine ⟨hattached.recorded.represents hcosts, fun H hH => ?_⟩
  have hcheapest := isCheapest_of_extendable hs.spanning (extendable_grow hn hp hcosts hg)
    (innerCandidate_of_oneTree hH)
  apply Kruskal.isCheapest_of_attached hcosts hg hs.spanning _ hs.possible _ hattached
  · intro e he
    obtain ⟨he, heM⟩ := Kruskal.mem_mandatoryPairs.mp he
    obtain ⟨ha, hb⟩ := Kruskal.inner_of_mem he
    exact hcheapest.candidate.mandatory _ ⟨hg.mem_mandatoryEdges.mpr heM, not_mem_inner ha hb⟩
  · intro e he heT f hf hfM hapart
    obtain ⟨ha, hb⟩ := Kruskal.inner_of_mem he
    have hpossible := hg.mem_possibleEdges.mpr (Kruskal.mem_possiblePairs.mp he).2.2.2
    exact hcheapest.le_of_exchange hpossible heT hf (fun h => hfM h.1)
      (hs.spanning.exchange hf ha hb hapart)

end Exact

end Prim

end GraphInterval
