import GraphInterval.Proofs.Lockstep
import GraphInterval.Proofs.OneTree.Spanned
import GraphInterval.Proofs.TiedHeap.Stale

/-!
# The quick finder is used again

A finder that ran before has the values of its heap and the parents of its
nodes left from then.  A node gets a parent whenever its entry in the heap
gets a value, and both are read only while it has an entry.  So the runs of a
used and of a new finder attach the same nodes to the same parents.
-/

namespace GraphInterval

namespace Prim

open OneTree Growth Attempt

variable {α : Type} [Scalar α] {n : ℕ} {costs : Table α} {g : GraphVar} {p q : Prim α}
variable {s t : Growth α} {u v : ℕ}

/-! ### What earlier runs keep -/

theorem fitted_step (hs : s.finder.Fitted n) (costs : Table α) (g : GraphVar)
    (s' : Growth α) (hstep : Growth.step costs g s = some s') : s'.finder.Fitted n := by
  obtain ⟨hnone, -⟩ | ⟨u, heap, hsome, -, hextend⟩ := step_cases hs costs g
  · rw [hnone] at hstep
    cases hstep
  · rw [hsome] at hstep
    obtain rfl := Option.some.inj hstep
    exact (continues_addNode hextend costs g u).fitted

theorem grow_fitted (hp : p.Fitted n) (costs : Table α) (g : GraphVar) :
    (grow costs g p).finder.Fitted n :=
  iterate_preserves (P := fun s : Growth α => s.finder.Fitted n)
    (fun _ _ hs => fitted_step hs costs g _) _ _
    (continues_addNode (s := { finder := p.restart, covered := true }) hp.restart costs g 1).fitted

theorem compute_fitted (hp : p.Fitted n) (costs : Table α) (g : GraphVar) :
    (compute costs g).wp (fun _ => Fitted n) (fun _ => Fitted n) p := by
  have hgrown := grow_fitted hp costs g
  have hattached : ∀ tree : OneTree α, tree.Sized n →
      Fitted n { (grow costs g p).finder with tree } := fun tree htree =>
    ⟨htree, hgrown.heap, hgrown.inTree, hgrown.parents⟩
  simp only [compute, wp_bind, wp_get, wp_ite, wp_set, wp_throw, wp_within]
  refine ⟨fun _ => hp, fun _ => ⟨fun _ => hgrown, fun _ => ⟨fun _ => hgrown, fun _ => ?_⟩⟩⟩
  exact wp_mono (Kruskal.attachDesignated_sized hgrown.tree costs g)
    (fun _ tree htree => hattached tree htree) fun _ tree htree => hattached tree htree

/-- The states of a finder for graphs of one order, after runs on any costs and graphs. -/
inductive Used (n : ℕ) : Prim α → Prop where
  | make : Used n (make n)
  | compute {p : Prim α} (costs : Table α) (g : GraphVar) :
      Used n p → Used n ((compute costs g).after p)

theorem Used.fitted (hp : Used n p) : p.Fitted n := by
  induction hp with
  | make => exact fitted_make n
  | compute costs g _ ih => exact after_of_wp (compute_fitted ih _ g)

/-! ### Two growths side by side -/

/-- The finders differ at most in values and parents of nodes without an entry in the heap. -/
structure Twins (n : ℕ) (p q : Prim α) : Prop where
  fitted : p.Fitted n
  tree_eq : p.tree = q.tree
  inTree_eq : p.inTree = q.inTree
  heap : TiedHeap.Alike n p.heap q.heap
  stacked : TiedHeap.Stacked n p.heap
  parents_size : q.parents.size = n
  parent_eq : ∀ v, p.heap.Holds v → p.parents.getD v 0 = q.parents.getD v 0

/-- Both growths went through the same steps. -/
structure Growth.Twins (n : ℕ) (s t : Growth α) : Prop where
  finder : s.finder.Twins n t.finder
  covered_eq : s.covered = t.covered

/-- A node that is offered an edge gets the same parent in both growths. -/
theorem twins_offer (h : s.Twins n t) (costs : Table α) (g : GraphVar) (u v : ℕ) :
    (offer costs g u s v).Twins n (offer costs g u t v) := by
  obtain ⟨⟨hfitted, htree, hinTree, hheap, hstacked, hparents, hparent⟩, hcovered⟩ := h
  have hspans : s.finder.spans v = t.finder.spans v := by rw [spans, spans, hinTree]
  have hkeep : (offer costs g u s v).finder.Fitted n := (continues_offer hfitted costs g u v).fitted
  rw [offer] at hkeep ⊢
  rw [offer, ← htree, ← hspans]
  split_ifs at hkeep ⊢ with hdesignated hfits hspanned
  · exact ⟨⟨hfitted, htree, hinTree, hheap, hstacked, hparents, hparent⟩, hcovered⟩
  · exact ⟨⟨hfitted, htree, hinTree, hheap, hstacked, hparents, hparent⟩, rfl⟩
  · exact ⟨⟨hfitted, htree, hinTree, hheap, hstacked, hparents, hparent⟩, hcovered⟩
  · have hlt : v < n := hfitted.tree.order_eq ▸ Nat.lt_of_not_le hfits
    obtain ⟨hchanged, hheap'⟩ :=
      hheap.insertOrDecrease hstacked.toStored hlt (edgeValue costs g u v)
    have hholds := TiedHeap.holds_insertOrDecrease hstacked.toStored hlt (edgeValue costs g u v)
    refine ⟨⟨hkeep, htree, hinTree, hheap', hstacked.insertOrDecrease hlt _, ?_, fun x hx => ?_⟩,
      ?_⟩
    · dsimp only
      split
      · exact Array.size_setIfInBounds.trans hparents
      · exact hparents
    · dsimp only at hx ⊢
      rw [getD_parents (hfitted.parents.symm ▸ hlt), getD_parents (hparents.symm ▸ hlt), ← hchanged]
      split
      · rfl
      next hkept =>
        -- the parent is kept, so the node had an entry before
        apply hparent
        obtain hx | rfl := (hholds x).mp hx
        · exact hx
        · apply hstacked.holds
          exact TiedHeap.contains_of_unchanged (Bool.eq_false_iff.mpr fun h => hkept ⟨h, rfl⟩)
    · dsimp only
      rw [hcovered]

theorem twins_addNode (h : s.Twins n t) (costs : Table α) (g : GraphVar) (u : ℕ) :
    (addNode costs g s u).Twins n (addNode costs g t u) := by
  obtain ⟨⟨hfitted, htree, hinTree, hheap, hstacked, hparents, hparent⟩, hcovered⟩ := h
  refine List.foldl_rel ⟨⟨?_, htree, ?_, hheap, hstacked, hparents, hparent⟩, hcovered⟩
    fun v _ s t h => twins_offer h costs g u v
  · exact (continues_mark hfitted u).fitted
  · exact congrArg (Array.setIfInBounds · u true) hinTree

theorem twins_step (h : s.Twins n t) (costs : Table α) (g : GraphVar) :
    Option.Rel (Growth.Twins n) (step costs g s) (step costs g t) := by
  obtain ⟨⟨hfitted, htree, hinTree, hheap, hstacked, hparents, hparent⟩, hcovered⟩ := h
  obtain ⟨hkey, hpopped⟩ := hheap.popMin
  obtain ⟨hstacked', hheld, hsub⟩ := hstacked.popMin
  have hempty := hheap.isEmpty_eq
  rw [step, step]
  generalize s.finder.heap.popMin = x at *
  generalize t.finder.heap.popMin = y at *
  obtain ⟨key?, heap⟩ := x
  obtain ⟨_, heap'⟩ := y
  obtain rfl : key? = _ := hkey
  cases key? with
  | none => exact .none
  | some u =>
    have hu := hparent u (hheld u rfl)
    dsimp only at *
    rw [← hu, ← htree, ← hcovered, hempty]
    refine .some (twins_addNode ?_ costs g u)
    refine ⟨⟨?_, rfl, hinTree, hpopped, hstacked', hparents, ?_⟩, rfl⟩
    · exact ⟨hfitted.tree.addEdge _ _ _, hstacked'.toStored, hfitted.inTree, hfitted.parents⟩
    · exact fun v hv => hparent v (hsub v hv)

/-- Whatever two finders did before, they grow the same tree. -/
theorem twins_grow (hp : p.Fitted n) (hq : q.Fitted n) (costs : Table α) (g : GraphVar) :
    (grow costs g p).Twins n (grow costs g q) := by
  rw [grow, grow, hp.tree.order_eq, hq.tree.order_eq]
  refine iterate_lockstep (fun s t h => twins_step h costs g) n (twins_addNode ?_ costs g 1)
  refine ⟨⟨hp.restart, ?_, ?_, TiedHeap.Alike.clear hp.heap hq.heap,
    TiedHeap.Stacked.clear hp.heap, hq.parents, ?_⟩, rfl⟩
  · exact (clear_eq_empty hp.tree).trans (clear_eq_empty hq.tree).symm
  · exact congrArg (Array.replicate · false) (hp.inTree.trans hq.inTree.symm)
  · rintro v ⟨i, hlt, -⟩
    exact absurd hlt (Nat.not_lt_zero i)

/-- Two finders for graphs of one order compute alike. -/
theorem compute_alike (hp : p.Fitted n) (hq : q.Fitted n) (costs : Table α) (g : GraphVar) :
    (compute costs g).alike (compute costs g) (fun _ p' q' => p'.tree = q'.tree)
      (fun f p' q' => (∀ cause, f ≠ .fault cause) → p'.tree = q'.tree) p q := by
  obtain ⟨⟨-, htree, -⟩, hcovered⟩ := twins_grow hp hq costs g
  refine alike_get_bind (alike_ite ?_ (fun _ => ?_) fun _ => ?_)
  · rw [hp.tree.order_eq, hq.tree.order_eq]
  · exact alike_throw fun h => absurd rfl (h _)
  refine alike_seq (R := fun p' q' => p'.tree = q'.tree) (alike_set htree) fun _ p' q' h => ?_
  refine alike_ite (by rw [hcovered]) (fun _ => ?_) fun _ => ?_
  · exact alike_throw fun _ => h
  refine alike_ite ?_ (fun _ => ?_) fun _ => ?_
  · rw [htree, hp.tree.order_eq, hq.tree.order_eq]
  · exact alike_throw fun _ => h
  exact alike_within _ h (fun _ _ => rfl) fun _ _ _ => rfl

/-- A used finder reports what a new one does. -/
theorem Used.compute_eq (hp : Used n p) (costs : Table α) (g : GraphVar) :
    (Prim.compute costs g).reported Prim.tree p =
      (Prim.compute costs g).reported Prim.tree (Prim.make n) :=
  reported_eq (compute_alike hp.fitted (fitted_make n) costs g)

end Prim

end GraphInterval
