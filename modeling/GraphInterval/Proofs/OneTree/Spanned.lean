import GraphInterval.Proofs.OneTree.Complete
import GraphInterval.Proofs.TiedHeap.Keys

/-!
# Growing a tree under any comparisons

Costs that compare with nothing may make the heap hand out a node twice.  The
edge to it is then no edge of a tree, but the result is not taken for a
one-tree: from there on the heap counts fewer nodes than it has, so it cannot
be emptied any more without a fault, and a growth that does not end early has
more edges than a spanning tree.
-/

namespace GraphInterval

namespace Prim

open OneTree Growth

variable {α : Type} [Scalar α] {n : ℕ} {costs : Table α} {g : GraphVar} {p : Prim α}
variable {s s' s₀ : Growth α} {W : Finset ℕ} {u v : ℕ}

/-! ### The sizes of the tables -/

/-- The tables have their sizes, and every node in the heap has an entry. -/
structure Fitted (n : ℕ) (p : Prim α) : Prop where
  tree : p.tree.Sized n
  heap : p.heap.Stored n
  inTree : p.inTree.size = n
  parents : p.parents.size = n

theorem fitted_make (n : ℕ) : (make n : Prim α).Fitted n :=
  ⟨sized_empty n, TiedHeap.stored_empty n, Array.size_replicate, Array.size_replicate⟩

theorem Fitted.restart (hp : p.Fitted n) : p.restart.Fitted n :=
  ⟨(clear_spec hp.tree).1, (TiedHeap.clear_vacant hp.heap).1,
    Array.size_replicate.trans hp.inTree, hp.parents⟩

/-- Edges were offered, which leaves the tree alone. -/
structure Continues (n : ℕ) (s s' : Growth α) : Prop where
  fitted : s'.finder.Fitted n
  tree_eq : s'.finder.tree = s.finder.tree
  spans_eq : s'.finder.spans = s.finder.spans
  covered : s'.covered = true → s.covered = true
  count_add : s'.finder.heap.count + (s.finder.heap.keys n).card =
    s.finder.heap.count + (s'.finder.heap.keys n).card

omit [Scalar α] in
theorem Continues.trans (h : Continues n s₀ s) (h' : Continues n s s') : Continues n s₀ s' := by
  have hcount := h.count_add
  have hcount' := h'.count_add
  exact ⟨h'.fitted, h'.tree_eq.trans h.tree_eq, h'.spans_eq.trans h.spans_eq,
    fun hs' => h.covered (h'.covered hs'), by omega⟩

theorem continues_offer (hs : s.finder.Fitted n) (costs : Table α) (g : GraphVar) (u v : ℕ) :
    Continues n s (offer costs g u s v) := by
  rw [offer]
  split_ifs with hdesignated hfits hspans
  · exact ⟨hs, rfl, rfl, id, rfl⟩
  · exact ⟨hs, rfl, rfl, fun h => absurd h (by simp), rfl⟩
  · exact ⟨hs, rfl, rfl, id, rfl⟩
  · have hlt : v < n := hs.tree.order_eq ▸ Nat.lt_of_not_le hfits
    refine ⟨⟨hs.tree, hs.heap.insertOrDecrease hlt _, hs.inTree, ?_⟩, rfl, rfl, fun h => ?_,
      TiedHeap.count_insertOrDecrease hs.heap hlt _⟩
    · dsimp only
      split
      · exact Array.size_setIfInBounds.trans hs.parents
      · exact hs.parents
    · exact (Bool.and_eq_true_iff.mp h).1

/-! ### The nodes that wait -/

/-- The nodes in the heap are next to a set of nodes. -/
def Waiting (n : ℕ) (g : GraphVar) (W : Finset ℕ) (p : Prim α) : Prop :=
  ∀ v, p.heap.contains v = true → v ∈ innerNodes n ∧ v ∉ W ∧ p.parents.getD v 0 ∈ W ∧
    g.isPotential (p.parents.getD v 0) v = true

theorem waiting_offer (hs : s.finder.Fitted n) (hspans : ∀ v, s.finder.spans v = true ↔ v ∈ W)
    (hw : Waiting n g W s.finder) (hu : u ∈ W) (huv : g.isPotential u v = true) :
    Waiting n g W (offer costs g u s v).finder := by
  rw [offer]
  split_ifs with hdesignated hfits hspanned
  · exact hw
  · exact hw
  · exact hw
  · have hlt : v < n := hs.tree.order_eq ▸ Nat.lt_of_not_le hfits
    have hvW : v ∉ W := fun h => hspanned ((hspans v).mpr h)
    intro x hx
    have hx' := (TiedHeap.contains_insertOrDecrease hs.heap.indexed hlt _ x).mp hx
    dsimp only
    rw [getD_parents (hs.parents.symm ▸ hlt)]
    by_cases hkept : (s.finder.heap.insertOrDecrease v (edgeValue costs g u v)).1 = true ∧ x = v
    · rw [if_pos hkept, hkept.2]
      exact ⟨mem_innerNodes.mpr ⟨hdesignated, hlt⟩, hvW, hu, huv⟩
    · rw [if_neg hkept]
      apply hw
      obtain hx' | rfl := hx'
      · exact hx'
      · exact TiedHeap.contains_of_unchanged (Bool.eq_false_iff.mpr fun h => hkept ⟨h, rfl⟩)

/-- A node is one of the tree. -/
def Growth.mark (s : Growth α) (u : ℕ) : Growth α :=
  { s with finder := { s.finder with inTree := s.finder.inTree.setIfInBounds u true } }

omit [Scalar α] in
theorem continues_mark (hs : s.finder.Fitted n) (u : ℕ) : Continues n (s.mark u) (s.mark u) :=
  ⟨⟨hs.tree, hs.heap, Array.size_setIfInBounds.trans hs.inTree, hs.parents⟩, rfl, rfl, id, rfl⟩

omit [Scalar α] in
theorem spans_mark (hs : s.finder.Fitted n) (hu : u < n)
    (hspans : ∀ v, s.finder.spans v = true ↔ v ∈ W) (v : ℕ) :
    (s.mark u).finder.spans v = true ↔ v ∈ insert u W := by
  rw [Finset.mem_insert, ← hspans]
  exact spans_setIfInBounds (hs.inTree.symm ▸ hu) v

/-- The edges of a new node are offered. -/
theorem continues_addNode (hs : s.finder.Fitted n) (costs : Table α) (g : GraphVar) (u : ℕ) :
    Continues n (s.mark u) (addNode costs g s u) := by
  apply List.foldlRecOn (motive := Continues n (s.mark u))
  · exact continues_mark hs u
  · exact fun s₁ h₁ v _ => h₁.trans (continues_offer h₁.fitted costs g u v)

theorem waiting_addNode (hg : g.IsSimple n) (hs : s.finder.Fitted n) (hu : u < n)
    (hspans : ∀ v, s.finder.spans v = true ↔ v ∈ W) (hw : Waiting n g (insert u W) s.finder) :
    Waiting n g (insert u W) (addNode costs g s u).finder := by
  suffices h : Continues n (s.mark u) (addNode costs g s u) ∧
      Waiting n g (insert u W) (addNode costs g s u).finder from h.2
  apply List.foldlRecOn (motive := fun s₁ : Growth α =>
    Continues n (s.mark u) s₁ ∧ Waiting n g (insert u W) s₁.finder)
  · exact ⟨continues_mark hs u, hw⟩
  · rintro s₁ ⟨h₁, hw₁⟩ v hv
    refine ⟨h₁.trans (continues_offer h₁.fitted costs g u v),
      waiting_offer h₁.fitted (fun v => ?_) hw₁ (Finset.mem_insert_self u W)
        ((Graph.mem_successors hg.valid.upper).mp hv)⟩
    rw [h₁.spans_eq]
    exact spans_mark hs hu hspans v

/-! ### Steps -/

/-- The growth with a new edge, before the edges of the new node are offered. -/
def Growth.extend (costs : Table α) (s : Growth α) (u : ℕ) (heap : TiedHeap α) : Growth α :=
  let parent := s.finder.parents.getD u 0
  { finder :=
      { s.finder with
        heap
        tree := s.finder.tree.addEdge parent u (costs.cost parent u) }
    covered := s.covered && !s.finder.heap.isEmpty && costs.covers parent u }

theorem step_cases (hs : s.finder.Fitted n) (costs : Table α) (g : GraphVar) :
    (step costs g s = none ∧ s.finder.heap.keys n = ∅) ∨
      ∃ u heap, step costs g s = some (addNode costs g (s.extend costs u heap) u) ∧
        s.finder.heap.Released u heap ∧ (s.extend costs u heap).finder.Fitted n := by
  obtain ⟨u, heap, hpop, hreleased⟩ | ⟨heap, hpop, hnone⟩ := TiedHeap.popMin_cases hs.heap
  · right
    have hstored : heap.Stored n := by
      have hpopped := hs.heap.popMin
      rwa [hpop] at hpopped
    refine ⟨u, heap, ?_, hreleased, ⟨hs.tree.addEdge _ _ _, hstored, hs.inTree, hs.parents⟩⟩
    rw [step, hpop]
    rfl
  · left
    refine ⟨?_, hnone⟩
    rw [step, hpop]

/-- The tree spans a set of nodes, and every node was handed out once. -/
structure Spanned (n : ℕ) (costs : Table α) (g : GraphVar) (W : Finset ℕ) (s : Growth α) :
    Prop where
  spans_iff : ∀ v, s.finder.spans v = true ↔ v ∈ W
  waiting : Waiting n g W s.finder
  count_eq : s.finder.heap.count = (s.finder.heap.keys n).card
  recorded : s.finder.tree.Recorded n costs
  spanning : IsSpanningTree W s.finder.tree.edgeSet
  rooted : 1 ∈ W
  inner : W ⊆ innerNodes n
  possible : ∀ e ∈ s.finder.tree.edgeSet, e ∈ g.possibleEdges

/-- The heap has more nodes than it counts. -/
def Short (n : ℕ) (s : Growth α) : Prop := s.finder.heap.count < (s.finder.heap.keys n).card

/-- The tree is a spanning tree of the nodes handed out, unless the growth ends in a fault or
takes too many steps. -/
structure Accounted (n : ℕ) (costs : Table α) (g : GraphVar) (s : Growth α) : Prop where
  fitted : s.finder.Fitted n
  spanned : s.covered = true → (∃ W, Spanned n costs g W s) ∨ Short n s

omit [Scalar α] in
theorem Continues.short (h : Continues n s s') (hs : Short n s) : Short n s' := by
  have hcount := h.count_add
  rw [Short] at hs ⊢
  omega

/-- A growth without a fault took its last node from a heap that counted at least one. -/
theorem covered_extend (heap : TiedHeap α) (h : (s.extend costs u heap).covered = true) :
    s.covered = true ∧ 0 < s.finder.heap.count := by
  simp only [Growth.extend, Bool.and_eq_true, Bool.not_eq_true', TiedHeap.isEmpty,
    beq_eq_false_iff_ne] at h
  exact ⟨h.1.1, Nat.pos_of_ne_zero h.1.2⟩

omit [Scalar α] in
/-- Where the heap counts its nodes, it still does after further offers. -/
theorem Continues.count_eq (h : Continues n s s')
    (hcount : s.finder.heap.count = (s.finder.heap.keys n).card) :
    s'.finder.heap.count = (s'.finder.heap.keys n).card := by
  have hadd := h.count_add
  omega

/-- The heap counts its nodes if the one that it handed out was in it. -/
theorem count_extend (hfit : s.finder.Fitted n) {heap : TiedHeap α}
    (hreleased : s.finder.heap.Released u heap)
    (hextend : (s.extend costs u heap).finder.Fitted n)
    (hu : s.finder.heap.contains u = true)
    (hcount : s.finder.heap.count = (s.finder.heap.keys n).card) :
    ((s.extend costs u heap).mark u).finder.heap.count =
      (((s.extend costs u heap).mark u).finder.heap.keys n).card := by
  have hmem := hfit.heap.indexed.mem_keys.mpr hu
  show heap.count = (heap.keys n).card
  rw [hreleased.keys_eq hfit.heap.indexed hextend.heap.indexed, Finset.card_erase_of_mem hmem,
    hreleased.count_eq, hcount]

/-- A node next to the tree is attached. -/
theorem Spanned.attach (hg : g.IsSimple n) (hs : Spanned n costs g W s) (hfit : s.finder.Fitted n)
    {heap : TiedHeap α} (hreleased : s.finder.heap.Released u heap)
    (hextend : (s.extend costs u heap).finder.Fitted n)
    (hu : s.finder.heap.contains u = true) :
    Spanned n costs g (insert u W) (addNode costs g (s.extend costs u heap) u) := by
  obtain ⟨hinner, huW, hparent, hpotential⟩ := hs.waiting u hu
  have hun := (mem_innerNodes.mp hinner).2
  have hpn := (mem_innerNodes.mp (hs.inner hparent)).2
  have hcontinues := continues_addNode hextend costs g u
  have htree : (addNode costs g (s.extend costs u heap) u).finder.tree =
      s.finder.tree.addEdge (s.finder.parents.getD u 0) u
        (costs.cost (s.finder.parents.getD u 0) u) := hcontinues.tree_eq
  have hnew : s(s.finder.parents.getD u 0, u) ∉ s.finder.tree.edgeSet := fun h =>
    huW (hs.spanning.inside _ _ h).2
  have hset : (addNode costs g (s.extend costs u heap) u).finder.tree.edgeSet =
      insert s(s.finder.parents.getD u 0, u) s.finder.tree.edgeSet := by
    rw [htree]
    exact edgeSet_addEdge _ _ _ _
  refine ⟨fun v => ?_, waiting_addNode hg hextend hun hs.spans_iff fun v hv => ?_, ?_, ?_, ?_,
    Finset.mem_insert_of_mem hs.rooted, Finset.insert_subset hinner hs.inner, ?_⟩
  · rw [hcontinues.spans_eq]
    exact spans_mark hextend hun hs.spans_iff v
  · obtain ⟨hin, hne⟩ := (hreleased.contains_iff v).mp hv
    obtain ⟨hv, hvW, hvp, hvpot⟩ := hs.waiting v hin
    refine ⟨hv, ?_, Finset.mem_insert_of_mem hvp, hvpot⟩
    rw [Finset.mem_insert, not_or]
    exact ⟨hne, hvW⟩
  · exact hcontinues.count_eq (count_extend hfit hreleased hextend hu hs.count_eq)
  · rw [htree]
    exact hs.recorded.addEdge hpn hun (hg.ne_of_isPotential hpotential) hnew
  · rw [hset]
    exact hs.spanning.insert_leaf huW hparent
  · rw [hset]
    intro e he
    obtain rfl | he := Finset.mem_insert.mp he
    · exact hg.mem_possibleEdges.mpr hpotential
    · exact hs.possible e he

/-- Once the heap has more nodes than it counts, this stays so. -/
theorem short_extend (hfit : s.finder.Fitted n) {heap : TiedHeap α}
    (hreleased : s.finder.heap.Released u heap)
    (hextend : (s.extend costs u heap).finder.Fitted n) (hpos : 0 < s.finder.heap.count)
    (h : Short n s ∨ s.finder.heap.contains u ≠ true ∧
      s.finder.heap.count = (s.finder.heap.keys n).card) :
    Short n (s.extend costs u heap) := by
  have hkeys : (s.extend costs u heap).finder.heap.keys n = (s.finder.heap.keys n).erase u :=
    hreleased.keys_eq hfit.heap.indexed hextend.heap.indexed
  have hcount : (s.extend costs u heap).finder.heap.count = s.finder.heap.count - 1 :=
    hreleased.count_eq
  rw [Short, hkeys, hcount]
  obtain h | ⟨hout, hcard⟩ := h
  · have hle := Finset.pred_card_le_card_erase (s := s.finder.heap.keys n) (a := u)
    rw [Short] at h
    omega
  · rw [Finset.erase_eq_of_notMem fun hmem => hout (hfit.heap.indexed.mem_keys.mp hmem)]
    omega

theorem Accounted.step (hg : g.IsSimple n) (hs : Accounted n costs g s)
    (hstep : Growth.step costs g s = some s') :
    Accounted n costs g s' ∧
      s'.finder.tree.edges.size = s.finder.tree.edges.size + 1 := by
  obtain ⟨hnone, -⟩ | ⟨u, heap, hsome, hreleased, hextend⟩ := step_cases hs.fitted costs g
  · rw [hnone] at hstep
    cases hstep
  rw [hsome] at hstep
  obtain rfl := Option.some.inj hstep
  have hcontinues := continues_addNode hextend costs g u
  refine ⟨⟨hcontinues.fitted, fun hcovered => ?_⟩, ?_⟩
  · obtain ⟨hcovered', hpos⟩ := covered_extend heap (hcontinues.covered hcovered)
    have hshort := short_extend hs.fitted hreleased hextend hpos
    obtain ⟨W, hW⟩ | hs' := hs.spanned hcovered'
    · by_cases hu : s.finder.heap.contains u = true
      · exact .inl ⟨_, hW.attach hg hs.fitted hreleased hextend hu⟩
      · exact .inr (hcontinues.short (hshort (.inr ⟨hu, hW.count_eq⟩)))
    · exact .inr (hcontinues.short (hshort (.inl hs')))
  · rw [hcontinues.tree_eq]
    exact Array.size_push _

/-! ### The computed one-tree -/

/-- The tree starts with one node. -/
theorem spanned_start (hn : 2 ≤ n) (hp : p.Fitted n) (costs : Table α) (hg : g.IsSimple n) :
    Spanned n costs g (insert 1 ∅)
      (addNode costs g { finder := p.restart, covered := true } 1) := by
  have hr := hp.restart
  obtain ⟨-, hvacant, -⟩ := TiedHeap.clear_vacant hp.heap
  obtain ⟨hrecorded, hempty⟩ := recorded_clear costs hp.tree
  have hcontinues := continues_addNode (s := { finder := p.restart, covered := true }) hr costs g 1
  have hkeys : p.restart.heap.keys n = ∅ := by
    rw [TiedHeap.keys, Finset.filter_eq_empty_iff]
    exact fun v _ hv => absurd ((hvacant v).symm.trans hv) (by simp)
  have hspans : ∀ v, p.restart.spans v = true ↔ v ∈ (∅ : Finset ℕ) := by
    intro v
    simp only [spans, restart, Array.getD_eq_getD_getElem?, Array.getElem?_replicate]
    split <;> simp
  have hset : (addNode costs g { finder := p.restart, covered := true } 1).finder.tree.edgeSet =
      ∅ := by
    rw [hcontinues.tree_eq]
    exact hempty
  refine ⟨fun v => ?_, waiting_addNode hg hr (by omega) hspans fun v hv => ?_, ?_, ?_, ?_,
    Finset.mem_insert_self _ _, ?_, ?_⟩
  · rw [hcontinues.spans_eq]
    exact spans_mark hr (by omega) hspans v
  · exact absurd ((hvacant v).symm.trans hv) (by simp)
  · have hcount : p.restart.heap.count = (p.restart.heap.keys n).card := by
      rw [hkeys]
      rfl
    exact hcontinues.count_eq hcount
  · rw [hcontinues.tree_eq]
    exact hrecorded
  · rw [hset, insert_empty_eq]
    exact IsSpanningTree.singleton 1
  · rw [insert_empty_eq, Finset.singleton_subset_iff, mem_innerNodes, designated]
    omega
  · rw [hset]
    exact fun e he => absurd he (Finset.notMem_empty e)

/-- A growth does not end while the heap has more nodes than it counts. -/
theorem Short.step_ne_none (hshort : Short n s) (hfit : s.finder.Fitted n) (costs : Table α)
    (g : GraphVar) : Growth.step costs g s ≠ none := by
  obtain ⟨-, hnone⟩ | ⟨u, heap, hsome, -⟩ := step_cases hfit costs g
  · rw [Short, hnone, Finset.card_empty] at hshort
    exact absurd hshort (Nat.not_lt_zero _)
  · rw [hsome]
    exact Option.some_ne_none _

/-- With as many edges as a spanning tree of the inner nodes has, these are the nodes spanned. -/
theorem Spanned.eq_innerNodes (hs : Spanned n costs g W s)
    (hsize : s.finder.tree.edges.size + 2 = n) : W = innerNodes n := by
  have hcard := (hs.spanning.forest.isSpanningTree_iff hs.spanning.inside ⟨_, hs.rooted⟩).mp
    hs.spanning
  rw [hs.recorded.card_edgeSet] at hcard
  apply Finset.eq_of_subset_of_card_le hs.inner
  rw [card_innerNodes]
  omega

/-- A growth with as many edges as a spanning tree has grown one, unless there was a fault. -/
theorem grow_spanned (hn : 2 ≤ n) (hp : p.Fitted n) (costs : Table α) (hg : g.IsSimple n) :
    (grow costs g p).finder.Fitted n ∧
      ((grow costs g p).covered = true → (grow costs g p).finder.tree.edges.size + 2 = n →
        Spanned n costs g (innerNodes n) (grow costs g p)) := by
  have hstart := spanned_start hn hp costs hg
  have hcontinues := continues_addNode (s := { finder := p.restart, covered := true }) hp.restart
    costs g 1
  have hgrow : grow costs g p = iterate (Growth.step costs g) n
      (addNode costs g { finder := p.restart, covered := true } 1) := by
    rw [grow, hp.tree.order_eq]
  generalize addNode costs g { finder := p.restart, covered := true } 1 = start at *
  have haccounted : Accounted n costs g start := ⟨hcontinues.fitted, fun _ => .inl ⟨_, hstart⟩⟩
  have hstep : ∀ s s', Accounted n costs g s → Growth.step costs g s = some s' →
      Accounted n costs g s' ∧
        s'.finder.tree.edges.size = s.finder.tree.edges.size + 1 := fun _ _ hs hstep =>
    hs.step hg hstep
  have hgrown := iterate_preserves (fun s s' hs h => (hstep s s' hs h).1) n start haccounted
  have hend := step_iterate_eq_none_or hstep n start haccounted
  rw [← hgrow] at hgrown hend
  refine ⟨hgrown.fitted, fun hcovered hsize => ?_⟩
  have hlast : Growth.step costs g (grow costs g p) = none :=
    hend.resolve_right fun hall => by omega
  obtain ⟨W, hW⟩ | hshort := hgrown.spanned hcovered
  · exact hW.eq_innerNodes hsize ▸ hW
  · exact absurd hlast (hshort.step_ne_none hgrown.fitted costs g)

theorem compute_complete (hn : 2 ≤ n) (hp : p.Fitted n) (hcosts : costs.Square n)
    (hg : g.IsSimple n) :
    (compute costs g).wp
      (fun _ p' => p'.Fitted n ∧ p'.tree.Complete n ∧ p'.tree.Recorded n costs)
      (fun failure p' => p'.Fitted n ∧ failure ≠ .wipeout) p := by
  obtain ⟨hfitted, hspanned⟩ := grow_spanned hn hp costs hg
  have hattached : ∀ tree : OneTree α, tree.Sized n →
      Fitted n { (grow costs g p).finder with tree } := fun tree htree =>
    ⟨htree, hfitted.heap, hfitted.inTree, hfitted.parents⟩
  simp only [compute, Attempt.wp_bind, Attempt.wp_get, Attempt.wp_ite, Attempt.wp_set,
    Attempt.wp_throw, Attempt.wp_within, hp.tree.order_eq]
  refine ⟨fun _ => ⟨hp, by simp⟩, fun _ => ⟨fun _ => ⟨hfitted, by simp⟩, fun hcovered =>
    ⟨fun _ => ⟨hfitted, by simp⟩, fun hsize => ?_⟩⟩⟩
  have hW := hspanned (by simpa using hcovered) (by simpa using hsize)
  refine Attempt.wp_mono (Attempt.wp_and
    (Kruskal.attachDesignated_sized hfitted.tree costs g)
    (attachDesignated_wp (by omega) hcosts hg hW.recorded (outerEdges_eq_empty hW.spanning)))
    ?_ ?_
  · rintro _ tree ⟨htree, h⟩
    exact ⟨hattached tree htree, h.complete hn hW.recorded hW.spanning, h.recorded⟩
  · rintro failure tree ⟨htree, rfl, -⟩
    exact ⟨hattached tree htree, by simp⟩

end Prim

end GraphInterval
