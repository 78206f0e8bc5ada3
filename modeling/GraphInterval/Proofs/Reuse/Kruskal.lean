import GraphInterval.Proofs.Lockstep
import GraphInterval.Proofs.OneTree.Selection

/-!
# The thorough finder is used again

The tree, the partition and the edges that were passed over are reset when a
computation starts, and nothing else is read while the edges are selected.  So
the runs of a used and of a new finder take the same edges.
-/

namespace GraphInterval

namespace Kruskal

open OneTree Attempt

variable {α : Type} [Scalar α] {n : ℕ} {costs : Table α} {g : GraphVar} {k l : Kruskal α}

/-- The finders agree on the tree and on everything that is read while it is selected; they have
the same costs if these are ones for all nodes. -/
structure Twins (n : ℕ) (costs : Table α) (k l : Kruskal α) : Prop where
  tree_eq : k.tree = l.tree
  sets_eq : k.sets = l.sets
  nonTreeEdges_eq : k.nonTreeEdges = l.nonTreeEdges
  costs_eq : costs.Square n → k.costs = l.costs

theorem twins_restart (hk : k.Sized n) (hl : l.Sized n) (costs : Table α) :
    Twins n costs (k.restart costs) (l.restart costs) := by
  refine ⟨?_, ?_, rfl, fun hcosts => ?_⟩
  · exact (clear_eq_empty hk.tree).trans (clear_eq_empty hl.tree).symm
  · exact congrArg Partition.discrete (hk.sets.trans hl.sets.symm)
  · exact (Table.overwrite_eq hk.costs hcosts).trans (Table.overwrite_eq hl.costs hcosts).symm

/-- A tree that is known when a computation fails, except by a fault. -/
def TwinsOnFailure (n : ℕ) (costs : Table α) (f : Failure) (k l : Kruskal α) : Prop :=
  (∀ cause, f ≠ .fault cause) → Twins n costs k l

theorem takeMandatory_alike (h : Twins n costs k l) (e : Edge) :
    (takeMandatory costs e).alike (takeMandatory costs e) (fun _ => Twins n costs)
      (TwinsOnFailure n costs) k l := by
  obtain ⟨htree, hsets, hedges, hcosts⟩ := h
  simp only [alike, takeMandatory, hsets, htree]
  cases (l.sets.union e.1 e.2).1
  · exact ⟨rfl, fun _ => ⟨rfl, rfl, hedges, hcosts⟩⟩
  · cases costs.covers e.1 e.2
    · exact ⟨rfl, fun _ => ⟨rfl, rfl, hedges, hcosts⟩⟩
    · exact ⟨trivial, rfl, rfl, hedges, hcosts⟩

theorem twins_takeUnlessCycle (h : Twins n costs k l) (e : Edge) :
    Twins n costs (takeUnlessCycle costs k e) (takeUnlessCycle costs l e) := by
  obtain ⟨htree, hsets, hedges, hcosts⟩ := h
  simp only [takeUnlessCycle, hsets, htree, hedges]
  split
  · exact ⟨rfl, rfl, rfl, hcosts⟩
  · exact ⟨rfl, rfl, rfl, hcosts⟩

theorem twins_selectCheapest (h : Twins n costs k l) (candidates : List Edge) :
    Twins n costs (selectCheapest costs candidates k) (selectCheapest costs candidates l) := by
  have hfold := List.foldl_rel (r := Twins n costs) (l := candidates.mergeSort (cheaper costs))
    (f := takeUnlessCycle costs) (g := takeUnlessCycle costs) h
    fun e _ k l h => twins_takeUnlessCycle h e
  exact ⟨hfold.tree_eq, hfold.sets_eq, congrArg List.reverse hfold.nonTreeEdges_eq, hfold.costs_eq⟩

/-- Whatever two finders did before, they compute alike. -/
theorem compute_alike (hk : k.Sized n) (hl : l.Sized n) (costs : Table α) (g : GraphVar) :
    (compute costs g).alike (compute costs g) (fun _ => Twins n costs)
      (TwinsOnFailure n costs) k l := by
  have hfault : ∀ {cause k l}, TwinsOnFailure n costs (.fault cause) k l := fun h =>
    absurd rfl (h _)
  have horder : k.tree.order = l.tree.order := hk.tree.order_eq.trans hl.tree.order_eq.symm
  refine alike_get_bind ?_
  dsimp only
  rw [horder]
  refine alike_ite ?_ (fun _ => alike_throw hfault) fun _ => ?_
  · rw [Bool.eq_iff_iff.mpr (Table.fits_iff_of_square hk.costs hl.costs costs)]
  refine alike_seq (alike_set (twins_restart hk hl costs)) fun _ k₁ l₁ h₁ => ?_
  refine alike_seq (alike_forM (fun e _ k l h => takeMandatory_alike h e) h₁) fun _ k₂ l₂ h₂ => ?_
  refine alike_get_bind ?_
  refine alike_ite ?_ (fun _ => alike_throw hfault) fun _ => ?_
  · simp only [knowsCandidates, h₂.sets_eq]
  refine alike_seq (alike_modify (twins_selectCheapest h₂ _)) fun _ k₃ l₃ h₃ => ?_
  refine alike_ite Iff.rfl (fun _ => alike_throw hfault) fun _ => alike_get_bind ?_
  refine alike_ite (by rw [h₃.tree_eq]) (fun _ => alike_throw fun _ => h₃) fun _ => ?_
  refine alike_seq (R := Twins n costs) (alike_within _ h₃.tree_eq ?_ ?_)
    fun _ k₄ l₄ h₄ => alike_get_bind ?_
  · exact fun _ t => ⟨rfl, h₃.sets_eq, h₃.nonTreeEdges_eq, h₃.costs_eq⟩
  · exact fun _ t _ => ⟨rfl, h₃.sets_eq, h₃.nonTreeEdges_eq, h₃.costs_eq⟩
  exact alike_ite (by rw [h₄.tree_eq]) (fun _ => alike_throw hfault) fun _ => alike_pure h₄

/-- A used finder reports what a new one does. -/
theorem Reached.compute_eq (hk : Reached n k) (costs : Table α) (g : GraphVar) :
    (Kruskal.compute costs g).reported Kruskal.tree k =
      (Kruskal.compute costs g).reported Kruskal.tree (Kruskal.make n) :=
  reported_eq (alike_mono (compute_alike hk.sized (sized_make n) costs g)
    (fun _ _ _ h => h.tree_eq) fun _ _ _ h hf => (h hf).tree_eq)

end Kruskal

end GraphInterval
