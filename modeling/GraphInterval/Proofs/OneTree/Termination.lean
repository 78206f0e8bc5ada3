import GraphInterval.Proofs.OneTree.Spanned
import GraphInterval.Proofs.Run

/-!
# The end of a growth

A node that was handed out is a node of the tree and is not offered again, so
the heap counts every node at most once.  The edges of the tree and the nodes
that the heap still counts are therefore fewer than the nodes, whatever the
costs are.  A growth without a fault ends before its bound is met, and is the
growth without a bound.
-/

namespace GraphInterval

namespace Prim

open Growth

variable {α : Type} [Scalar α] {n : ℕ} {costs : Table α} {g : GraphVar} {p : Prim α}
variable {s s' : Growth α} {u : ℕ}

/-- The nodes in the tree or in the heap. -/
def Growth.touched (n : ℕ) (s : Growth α) : Finset ℕ :=
  ((Finset.range n).filter fun v => s.finder.spans v = true) ∪ s.finder.heap.keys n

omit [Scalar α] in
theorem card_touched_le (n : ℕ) (s : Growth α) : (s.touched n).card ≤ n := by
  have hsubset : s.touched n ⊆ Finset.range n :=
    Finset.union_subset (Finset.filter_subset _ _) (Finset.filter_subset _ _)
  exact (Finset.card_le_card hsubset).trans_eq (Finset.card_range n)

/-- Unless there was a fault, the edges and the nodes that the heap counts are fewer than the nodes
that were touched. -/
structure Limited (n : ℕ) (s : Growth α) : Prop where
  fitted : s.finder.Fitted n
  count_lt : s.covered = true →
    s.finder.heap.count + s.finder.tree.edges.size < (s.touched n).card

/-- A node that the heap counts anew was not touched before. -/
theorem Limited.offer (hs : Limited n s) (costs : Table α) (g : GraphVar) (u v : ℕ) :
    Limited n (offer costs g u s v) := by
  have hcontinues := continues_offer hs.fitted costs g u v
  refine ⟨hcontinues.fitted, fun hcovered => ?_⟩
  have hlt := hs.count_lt (hcontinues.covered hcovered)
  rw [Growth.offer]
  split_ifs with hdesignated hfits hspans
  · exact hlt
  · exact hlt
  · exact hlt
  have hv : v < n := hs.fitted.tree.order_eq ▸ Nat.lt_of_not_le hfits
  have hcount := TiedHeap.count_insertOrDecrease hs.fitted.heap hv (edgeValue costs g u v)
  have hkeys := TiedHeap.keys_insertOrDecrease hs.fitted.heap hv (edgeValue costs g u v)
  rw [touched] at hlt ⊢
  dsimp only
  rw [hkeys] at hcount ⊢
  by_cases hknown : v ∈ s.finder.heap.keys n
  · rw [Finset.insert_eq_of_mem hknown] at hcount ⊢
    have hsame := Nat.add_right_cancel hcount
    rw [hsame]
    exact hlt
  · have hnew : v ∉ ((Finset.range n).filter fun v => s.finder.spans v = true) ∪
        s.finder.heap.keys n := by
      rw [Finset.mem_union, not_or, Finset.mem_filter]
      exact ⟨fun h => hspans h.2, hknown⟩
    rw [Finset.card_insert_of_notMem hknown] at hcount
    rw [Finset.union_insert]
    have hcard := Finset.card_insert_of_notMem hnew
    refine lt_of_lt_of_eq ?_ hcard.symm
    omega

theorem Limited.addNode (hs : Limited n (s.mark u)) (costs : Table α) (g : GraphVar) :
    Limited n (addNode costs g s u) :=
  List.foldlRecOn (motive := Limited n) _ _ hs fun _ h v _ => h.offer costs g u v

/-- A node that is handed out stays touched, now as a node of the tree. -/
theorem touched_subset_extend (hs : s.finder.Fitted n) {heap : TiedHeap α}
    (hreleased : s.finder.heap.Released u heap)
    (hextend : (s.extend costs u heap).finder.Fitted n) :
    s.touched n ⊆ ((s.extend costs u heap).mark u).touched n := by
  have hkeys : ((s.extend costs u heap).mark u).finder.heap.keys n =
      (s.finder.heap.keys n).erase u :=
    hreleased.keys_eq hs.heap.indexed hextend.heap.indexed
  have hspans : ∀ v, s.finder.spans v = true ∨ v = u ∧ u < n →
      ((s.extend costs u heap).mark u).finder.spans v = true := by
    intro v hv
    by_cases hu : u < n
    · have hiff := spans_setIfInBounds (p := (s.extend costs u heap).finder)
        (hs.inTree.symm ▸ hu) v
      exact hiff.mpr (hv.elim .inr fun h => .inl h.1)
    · have hold := hv.resolve_right fun h => hu h.2
      have hsame : s.finder.inTree.setIfInBounds u true = s.finder.inTree :=
        Array.setIfInBounds_eq_of_size_le (hs.inTree.trans_le (Nat.le_of_not_lt hu))
      simp only [Growth.mark, Growth.extend, spans, hsame]
      exact hold
  intro v hv
  rw [touched, Finset.mem_union, Finset.mem_filter] at hv ⊢
  obtain ⟨hrange, hold⟩ | hin := hv
  · exact .inl ⟨hrange, hspans v (.inl hold)⟩
  · have hvn : v < n := Finset.mem_range.mp (Finset.mem_filter.mp hin).1
    by_cases hvu : v = u
    · exact .inl ⟨Finset.mem_range.mpr hvn, hspans v (.inr ⟨hvu, hvu ▸ hvn⟩)⟩
    · rw [hkeys]
      exact .inr (Finset.mem_erase.mpr ⟨hvu, hin⟩)

theorem Limited.step (hs : Limited n s) (hstep : step costs g s = some s') :
    Limited n s' ∧ s'.finder.tree.edges.size = s.finder.tree.edges.size + 1 := by
  obtain ⟨hnone, -⟩ | ⟨u, heap, hsome, hreleased, hextend⟩ := step_cases hs.fitted costs g
  · rw [hnone] at hstep
    cases hstep
  rw [hsome] at hstep
  obtain rfl := Option.some.inj hstep
  have hsize : (s.extend costs u heap).finder.tree.edges.size =
      s.finder.tree.edges.size + 1 := Array.size_push _
  refine ⟨Limited.addNode ⟨(continues_mark hextend u).fitted, fun hcovered => ?_⟩ costs g, ?_⟩
  · obtain ⟨hcovered', hpos⟩ := covered_extend heap hcovered
    have hlt := hs.count_lt hcovered'
    have hcard := Finset.card_le_card (touched_subset_extend hs.fitted hreleased hextend)
    have hcount : ((s.extend costs u heap).mark u).finder.heap.count =
        s.finder.heap.count - 1 := hreleased.count_eq
    have hedges : ((s.extend costs u heap).mark u).finder.tree.edges.size =
        s.finder.tree.edges.size + 1 := hsize
    omega
  · rw [(continues_addNode hextend costs g u).tree_eq]
    exact hsize

/-- At first there are no edges, and the heap counts no nodes. -/
theorem limited_start (hn : 2 ≤ n) (hp : p.Fitted n) (costs : Table α) (g : GraphVar) :
    Limited n (addNode costs g { finder := p.restart, covered := true } 1) := by
  have hr := hp.restart
  have hmarked := (continues_mark (s := ⟨p.restart, true⟩) hr 1).fitted
  refine Limited.addNode ⟨hmarked, fun _ => ?_⟩ costs g
  have hspans : (Growth.mark ⟨p.restart, true⟩ 1).finder.spans 1 = true :=
    (spans_setIfInBounds (hr.inTree.symm ▸ hn) 1).mpr (.inl rfl)
  refine Finset.card_pos.mpr ⟨1, Finset.mem_union_left _ (Finset.mem_filter.mpr ⟨?_, hspans⟩)⟩
  exact Finset.mem_range.mpr hn

/-- Whatever the costs are, a growth without a fault ends with the result of the loop without a
bound. -/
theorem grow_terminates (hn : 2 ≤ n) (hp : p.Fitted n) (costs : Table α) (g : GraphVar)
    (hcovered : (grow costs g p).covered = true) :
    grow costs g p ∈ StateTransition.eval (Growth.step costs g)
      (addNode costs g { finder := p.restart, covered := true } 1) := by
  have hstart := limited_start hn hp costs g
  have hsize : (addNode costs g { finder := p.restart, covered := true } 1).finder.tree.edges.size =
      0 := by
    rw [(continues_addNode (s := ⟨p.restart, true⟩) hp.restart costs g 1).tree_eq]
    rfl
  have hgrow : grow costs g p = iterate (Growth.step costs g) n
      (addNode costs g { finder := p.restart, covered := true } 1) := by
    rw [grow, hp.tree.order_eq]
  rw [hgrow] at hcovered ⊢
  generalize addNode costs g { finder := p.restart, covered := true } 1 = start at *
  have hstep : ∀ s s', Limited n s → Growth.step costs g s = some s' →
      Limited n s' ∧ s'.finder.tree.edges.size = s.finder.tree.edges.size + 1 :=
    fun _ _ hs hstep => hs.step hstep
  have hgrown := iterate_preserves (fun s s' hs h => (hstep s s' hs h).1) n start hstart
  have hend := step_iterate_eq_none_or hstep n start hstart
  refine iterate_mem_eval (hend.resolve_right fun hall => ?_)
  have hlt := hgrown.count_lt hcovered
  have hle := card_touched_le n (iterate (Growth.step costs g) n start)
  omega

end Prim

end GraphInterval
