import GraphInterval.Proofs.OneTree.Conflict
import GraphInterval.Proofs.OneTree.Selection

/-!
# Complete one-trees

A finder that succeeds holds a complete one-tree, whatever the costs are: the
comparisons of costs only decide which one it is.  Pruning reads the tree and
leaves it as it is, also if it stops early.
-/

namespace GraphInterval

namespace OneTree

variable {α : Type} {n : ℕ}

/-- The record of a one-tree over `n` nodes, with every edge in it once. -/
structure Complete (n : ℕ) (t : OneTree α) : Prop where
  size_eq : t.edges.size = n
  isOneTree : IsOneTree n t.edgeSet
  contains_iff : ∀ a < n, ∀ b < n, t.contains a b = true ↔ s(a, b) ∈ t.edgeSet

variable [Scalar α] {costs : Table α} {g : GraphVar} {t t' : OneTree α}

/-- A spanning tree has two edges less than the one-tree that it becomes. -/
theorem Attached.complete (hn : 2 ≤ n) (ht : t.Recorded n costs)
    (htree : IsSpanningTree (innerNodes n) t.edgeSet) (h : Attached n costs g t t') :
    t'.Complete n := by
  have hnonempty : (innerNodes n).Nonempty := by
    rw [← Finset.card_pos, card_innerNodes]
    omega
  have hcard := (htree.forest.isSpanningTree_iff htree.inside hnonempty).mp htree
  rw [ht.card_edgeSet, card_innerNodes] at hcard
  refine ⟨?_, h.isOneTree htree, h.recorded.contains_iff⟩
  rw [h.size_eq]
  omega

end OneTree

namespace Kruskal

open OneTree

variable {α : Type} [Scalar α] {n : ℕ} {costs : Table α} {g : GraphVar} {k : Kruskal α}

/-! ### The thorough finder -/

/-- The tree is complete, and its degrees and its cost are those of its edges. -/
theorem compute_complete (hn : 2 ≤ n) (hk : k.Sized n) (hcosts : costs.Square n)
    (hg : g.IsSimple n) :
    (compute costs g).wp
      (fun _ k' => k'.Sized n ∧ k'.tree.Complete n ∧ k'.tree.Recorded n costs)
      (fun failure k' => k'.Sized n ∧ failure ≠ .wipeout) k := by
  have hsorted : ((optionalPairs n g).mergeSort (cheaper costs)).Pairwise fun _ _ => True :=
    List.pairwise_of_forall fun _ _ => trivial
  refine Attempt.wp_mono (Attempt.wp_and (compute_sized hk costs g)
    (compute_composed (R := fun _ _ => True) hn hk hcosts hg hsorted)) ?_ ?_
  · rintro _ k' ⟨hsized, k₁, hselected, htree, hattached, -⟩
    exact ⟨hsized, hattached.complete hn hselected.selecting.recorded htree, hattached.recorded⟩
  · rintro failure k' ⟨hsized, rfl, -⟩
    exact ⟨hsized, by simp⟩

/-- Without edges between inner nodes, the finder is left with a tree without edges. -/
theorem compute_barren (hn : 3 ≤ n) (hk : k.Sized n) (hcosts : costs.Square n) (hg : g.IsSimple n)
    (hnone : possiblePairs n g = []) :
    (compute costs g).wp (fun _ _ => False)
      (fun failure k' => failure = .conflict detector ∧ k'.tree.edges = #[]) k := by
  have hfits := Table.fits_of_square hk.costs hcosts
  have hmandatory : mandatoryPairs n g = [] := by
    rw [mandatoryPairs, hnone]
    rfl
  have hoptional : optionalPairs n g = [] := by
    rw [optionalPairs, hnone]
    rfl
  have hselected :
      (selectCheapest costs (optionalPairs n g) (k.restart costs)).tree.edges = #[] := by
    rw [hoptional, selectCheapest, List.mergeSort_nil]
    exact (clear_spec hk.tree).2.1
  simp only [compute, Attempt.wp_bind, Attempt.wp_get, Attempt.wp_ite, Attempt.wp_pure,
    Attempt.wp_set, Attempt.wp_throw, Attempt.wp_modify, hfits, hk.tree.order_eq]
  rw [← possiblePairs, ← mandatoryPairs, ← optionalPairs, hmandatory]
  refine ⟨fun h => absurd h (by simp), fun _ => ⟨fun h => absurd h ?_, fun _ =>
    ⟨fun h => absurd h (by omega), fun _ => ⟨fun _ => ⟨trivial, hselected⟩, fun hsize => ?_⟩⟩⟩⟩
  · simp [coversPairs_eq hg.isUndirected, knowsCandidates_eq hcosts]
  · have hlack : (#[] : Array Edge).size + 2 ≠ n := by
      simp only [List.size_toArray, List.length_nil]
      omega
    rw [hselected] at hsize
    exact absurd hlack hsize

/-! ### Pruning -/

omit [Scalar α] in
theorem tree_rootTree (k : Kruskal α) : k.rootTree.tree = k.tree :=
  rootTree_preserves (P := fun k₁ => k₁.tree = k.tree) rfl (fun _ _ h => h) fun _ _ _ h => h

theorem tree_pathMaximaFrom (g : GraphVar) (k : Kruskal α) (s : ℕ) :
    (pathMaximaFrom g k s).tree = k.tree :=
  pathMaximaFrom_preserves (P := fun k₁ => k₁.tree = k.tree) rfl (fun _ _ h => h)
    fun _ _ _ h => h

theorem tree_prepare (g : GraphVar) (k : Kruskal α) : (prepare g k).tree = k.tree := by
  have hmaxima : (k.rootTree.computePathMaxima g).tree = k.tree :=
    List.foldlRecOn (motive := fun k₁ : Kruskal α => k₁.tree = k.tree) _ _ (tree_rootTree k)
      fun k₁ hk₁ s _ => (tree_pathMaximaFrom g k₁ s).trans hk₁
  have hframe := computeReplacements_frame (k.rootTree.computePathMaxima g)
  exact (congrArg Kruskal.tree hframe :).trans hmaxima

/-- A mutation followed by a computation that narrows the graph. -/
theorem narrows_then {f : Bool → Attempt GraphVar ℕ} (hg : g.Valid) (m : GraphVar.Mutation)
    (hf : ∀ changed g', g'.Valid → (f changed).wp (fun _ g'' => g'.Narrows g'')
      (fun _ g'' => g'.Narrows g'') g') :
    (m.run >>= f).wp (fun _ g' => g.Narrows g') (fun _ g' => g.Narrows g') g := by
  rw [Attempt.wp_bind]
  refine Attempt.wp_mono (GraphVar.Mutation.wp_run hg m) ?_ fun _ _ h => h.2 ▸ .refl
  intro changed g₁ h₁
  exact Attempt.wp_mono (hf changed g₁ (h₁.valid hg)) (fun _ _ h₂ => h₁.trans h₂)
    fun _ _ h₂ => h₁.trans h₂

theorem removeAll_narrows (hg : g.Valid) (edges : List Edge) :
    (removeAll edges).wp (fun _ g' => g.Narrows g') (fun _ g' => g.Narrows g') g := by
  induction edges generalizing g with
  | nil => exact .refl
  | cons e edges ih =>
      refine narrows_then hg (.removeEdge e.1 e.2) fun changed g' hg' => ?_
      rw [Attempt.wp_bind]
      exact ih hg'

theorem enforceAll_narrows (hg : g.Valid) (edges : List Edge) :
    (enforceAll edges).wp (fun _ g' => g.Narrows g') (fun _ g' => g.Narrows g') g := by
  induction edges generalizing g with
  | nil => exact .refl
  | cons e edges ih =>
      refine narrows_then hg (.enforceEdge e.1 e.2) fun changed g' hg' => ?_
      rw [Attempt.wp_bind]
      exact ih hg'

/-- Pruning narrows the graph and keeps the one-tree, with any costs and also if it stops. -/
theorem prune_keeps (hk : k.Sized n) (hg : g.Valid) (budget : α) :
    (prune budget).wp
      (fun _ s => s.propagator.Sized n ∧ s.propagator.tree = k.tree ∧ g.Narrows s.domains)
      (fun _ s => s.propagator.Sized n ∧ s.propagator.tree = k.tree ∧ g.Narrows s.domains)
      ⟨k, g⟩ := by
  have htree := tree_prepare g k
  refine Attempt.wp_mono (Attempt.wp_and (prune_sized hk budget g) (?_ : (prune budget).wp
    (fun _ s => s.propagator.tree = k.tree ∧ g.Narrows s.domains)
    (fun _ s => s.propagator.tree = k.tree ∧ g.Narrows s.domains) ⟨k, g⟩))
    (fun _ _ h => h) fun _ _ h => h
  simp only [prune, Posted.update, Posted.onDomains, Attempt.wp_bind, Attempt.wp_get,
    Attempt.wp_ite, Attempt.wp_pure, Attempt.wp_throw, Attempt.wp_modify, Attempt.wp_within]
  refine ⟨fun _ => ⟨trivial, .refl⟩, fun _ => ?_⟩
  refine Attempt.wp_mono (removeAll_narrows hg _) ?_ fun _ _ h₁ => ⟨htree, h₁⟩
  intro _ g₁ h₁
  exact Attempt.wp_mono (enforceAll_narrows (h₁.valid hg) _) (fun _ _ h₂ => ⟨htree, h₁.trans h₂⟩)
    fun _ _ h₂ => ⟨htree, h₁.trans h₂⟩

end Kruskal

end GraphInterval
