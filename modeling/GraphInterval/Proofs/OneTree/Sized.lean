import GraphInterval.Proofs.GraphVar.Reachable
import GraphInterval.Proofs.OneTree.Paths

/-!
# States of the thorough finder

A finder is made for graphs of one order, and its tables keep the sizes of
that order whatever costs and graphs it is run on afterwards, also where it
fails.  Nothing else has to be known about its earlier runs.
-/

namespace GraphInterval

namespace Partition

theorem size_find (p : Partition) (x : ℕ) : (p.find x).2.size = p.size := by
  have hsize : (iterate halve p.size (p, x)).1.size = p.size := by
    apply iterate_preserves (P := fun search : Partition × ℕ => search.1.size = p.size) _ _ _ rfl
    rintro ⟨q, y⟩ next hq hstep
    rw [halve] at hstep
    split at hstep
    next => exact absurd hstep (by simp)
    next =>
      obtain rfl := Option.some.inj hstep
      exact (Array.size_setIfInBounds ..).trans hq
  exact hsize

theorem size_link (p : Partition) (a b : ℕ) : (p.link a b).size = p.size := by
  rw [link]
  split
  · exact Array.size_setIfInBounds ..
  · exact Array.size_setIfInBounds ..

theorem size_union (p : Partition) (a b : ℕ) : (p.union a b).2.size = p.size := by
  have hfind : ((p.find a).2.find b).2.size = p.size := (size_find _ b).trans (size_find p a)
  rw [union]
  dsimp only
  split
  · exact hfind
  · exact (size_link _ _ _).trans hfind

end Partition

namespace Kruskal

open OneTree

variable {α : Type} [Scalar α] {n : ℕ} {k : Kruskal α} {costs : Table α} {g : GraphVar}

theorem sized_make (n : ℕ) : (make n : Kruskal α).Sized n :=
  ⟨sized_empty n, Array.size_range, Table.square_replicate n _, Array.size_replicate,
    Array.size_replicate, Array.size_replicate, Table.square_replicate n _, Array.size_replicate,
    Array.size_replicate, Table.square_replicate n _⟩

/-! ### Computing a one-tree -/

theorem takeMandatory_sized (hk : k.Sized n) (costs : Table α) (e : Edge) :
    (takeMandatory costs e).wp (fun _ => Sized n) (fun _ => Sized n) k := by
  have hsets := (Partition.size_union k.sets e.1 e.2).trans hk.sets
  have hunited : Sized n { k with sets := (k.sets.union e.1 e.2).2 } := hk.withSets hsets
  rw [Attempt.wp, takeMandatory]
  dsimp only
  by_cases hfresh : (k.sets.union e.1 e.2).1 = true
  · by_cases hcovers : costs.covers e.1 e.2 = true
    · simp only [hfresh, hcovers]
      exact hunited.withTree (hk.tree.addEdge _ _ _)
    · simp only [hfresh, hcovers]
      exact hunited
  · simp only [hfresh]
    exact hunited

theorem takeUnlessCycle_sized (hk : k.Sized n) (costs : Table α) (e : Edge) :
    (takeUnlessCycle costs k e).Sized n := by
  have hunited : Sized n { k with sets := (k.sets.union e.1 e.2).2 } :=
    hk.withSets ((Partition.size_union k.sets e.1 e.2).trans hk.sets)
  rw [takeUnlessCycle]
  dsimp only
  split
  · exact hunited.withTree (hk.tree.addEdge _ _ _)
  · exact { hunited with }

theorem selectCheapest_sized (hk : k.Sized n) (costs : Table α) (candidates : List Edge) :
    (selectCheapest costs candidates k).Sized n := by
  have hfold := List.foldlRecOn (motive := Sized n) (candidates.mergeSort (cheaper costs))
    (takeUnlessCycle costs) hk fun k hk e _ => takeUnlessCycle_sized hk costs e
  exact { hfold with }

/-- Attaching the designated node ends with all its edges, or stops, possibly before the first. -/
theorem attachDesignated_ends {t : OneTree α} {P Q : OneTree α → Prop}
    (hjoined : P (t.joinDesignated costs g)) (hstopped : Q t ∧ Q (t.joinDesignated costs g)) :
    (attachDesignated costs g).wp (fun _ => P) (fun _ => Q) t := by
  rw [Attempt.wp, attachDesignated]
  generalize t.joinDesignated costs g = joined at *
  dsimp only
  split_ifs
  · exact hstopped.1
  · exact hstopped.1
  · exact hstopped.1
  · exact hstopped.2
  · exact hjoined

theorem attachDesignated_sized {t : OneTree α} (ht : t.Sized n) (costs : Table α) (g : GraphVar) :
    (attachDesignated costs g).wp (fun _ => OneTree.Sized n) (fun _ => OneTree.Sized n) t := by
  have hjoined : (t.joinDesignated costs g).Sized n := by
    apply List.foldlRecOn (motive := OneTree.Sized n)
    · exact List.foldlRecOn (motive := OneTree.Sized n) _ _ ht fun t ht v _ => ht.addEdge _ _ _
    · intro t ht v _
      rw [joinIfNeeded]
      split
      · exact ht
      · exact ht.addEdge _ _ _
  exact attachDesignated_ends hjoined ⟨ht, hjoined⟩

theorem compute_sized (hk : k.Sized n) (costs : Table α) (g : GraphVar) :
    (compute costs g).wp (fun _ => Sized n) (fun _ => Sized n) k := by
  simp only [compute, Attempt.wp_bind, Attempt.wp_get, Attempt.wp_ite, Attempt.wp_pure,
    Attempt.wp_set, Attempt.wp_throw, Attempt.wp_modify, Attempt.wp_within]
  refine ⟨fun _ => hk, fun hfits => ?_⟩
  have hfits : k.costs.fits costs = true := by simpa using hfits
  apply Attempt.wp_mono (Attempt.wp_forM_keep (I := Sized n)
    (fun e _ k hk => takeMandatory_sized hk costs e) (sized_restart hk hfits)) _ fun _ _ h => h
  intro _ k₁ hk₁
  refine ⟨fun _ => hk₁, fun _ => ?_⟩
  have hk₂ := selectCheapest_sized hk₁ costs
  refine ⟨fun _ => hk₂ _, fun _ => ⟨fun _ => hk₂ _, fun _ => ?_⟩⟩
  apply Attempt.wp_mono (attachDesignated_sized (hk₂ _).tree costs g)
  · exact fun _ t ht => ⟨fun _ => (hk₂ _).withTree ht, fun _ => (hk₂ _).withTree ht⟩
  · exact fun _ t ht => (hk₂ _).withTree ht

/-- A computation that succeeds takes the mandatory edges, selects among the others and attaches
the designated node to a tree of the other nodes. -/
theorem compute_phases {M Q : Kruskal α → Prop} (horder : k.tree.order = n)
    (hstart : M (k.restart costs))
    (hmandatory : ∀ e ∈ mandatoryPairs n g, ∀ k, M k →
      (takeMandatory costs e).wp (fun _ => M) (fun _ _ => True) k)
    (hattach : ∀ k k', M k → selectCheapest costs (optionalPairs n g) k = k' → 2 ≤ n →
      k'.tree.edges.size + 2 = n → (attachDesignated costs g).wp
        (fun _ t => Q { k' with tree := t }) (fun _ _ => True) k'.tree) :
    (compute costs g).wp (fun _ => Q) (fun _ _ => True) k := by
  simp only [compute, Attempt.wp_bind, Attempt.wp_get, Attempt.wp_ite, Attempt.wp_pure,
    Attempt.wp_set, Attempt.wp_throw, Attempt.wp_modify, Attempt.wp_within, horder]
  rw [← possiblePairs, ← mandatoryPairs, ← optionalPairs]
  refine ⟨fun _ => trivial, fun _ => ?_⟩
  refine Attempt.wp_mono (Attempt.wp_forM_keep (I := M) hmandatory hstart) ?_ fun _ _ _ => trivial
  intro _ k₁ h₁
  refine ⟨fun _ => trivial, fun _ => ⟨fun _ => trivial, fun hn =>
    ⟨fun _ => trivial, fun hsize => ?_⟩⟩⟩
  have hsize : (selectCheapest costs (optionalPairs n g) k₁).tree.edges.size + 2 = n := by
    simpa using hsize
  exact Attempt.wp_mono (hattach k₁ _ h₁ rfl (Nat.le_of_not_lt hn) hsize)
    (fun _ _ hQ => ⟨fun _ => trivial, fun _ => hQ⟩) fun _ _ _ => trivial

/-! ### Analysing a one-tree -/

omit [Scalar α] in
theorem rootTree_sized (hk : k.Sized n) : k.rootTree.Sized n := by
  have hlisted : k.listNeighbours.Sized n := by
    refine hk.withRooting ?_ hk.parents hk.depths
    apply List.foldlRecOn (motive := fun lists : Array (List ℕ) => lists.size = n)
    · exact Array.size_replicate.trans hk.neighbours
    · intro lists hlists e _
      simpa using hlists
  have hrooting : ∀ {k : Kruskal α} {parents depths : Array ℕ}, k.Sized n →
      parents.size = k.parents.size → depths.size = k.depths.size →
      Sized n { k with parents := parents, depths := depths } := fun hk hparents hdepths =>
    hk.withRooting hk.neighbours (hparents.trans hk.parents) (hdepths.trans hk.depths)
  refine rootTree_preserves ?_ (fun _ l hk => hk.withStack l) fun _ _ x hk => ?_
  · exact (hrooting hlisted Array.size_setIfInBounds Array.size_setIfInBounds).startWalk root
  · exact (hrooting hk Array.size_setIfInBounds Array.size_setIfInBounds).withStack (x :: _)

theorem pathMaximaFrom_sized (hk : k.Sized n) (g : GraphVar) (s : ℕ) :
    (pathMaximaFrom g k s).Sized n := by
  have hextending : ∀ {k : Kruskal α} {maxima : Table α} {jumps : Array ℕ}, k.Sized n →
      maxima.Square n → jumps.size = k.jumps.size →
      Sized n { k with pathMaxima := maxima, jumps := jumps } := fun hk hmaxima hjumps =>
    (hk.withPathMaxima hmaxima).withJumps (hjumps.trans hk.jumps)
  refine pathMaximaFrom_preserves ?_ (fun _ l hk => hk.withStack l) fun _ _ x hk => ?_
  · exact (hextending hk (hk.pathMaxima.put _ _ _) Array.size_setIfInBounds).startWalk s
  · exact (hextending hk (hk.pathMaxima.put _ _ _) Array.size_setIfInBounds).withStack (x :: _)

omit [Scalar α] in
theorem climb_sized (hk : k.Sized n) (v : ℕ) : (k.climb v).1.Sized n := by
  apply iterate_preserves (P := fun state : Kruskal α × ℕ => state.1.Sized n) _ _ _ hk
  rintro ⟨k, v⟩ next hk hstep
  rw [climbStep] at hstep
  split at hstep
  next => exact absurd hstep (by simp)
  next =>
    obtain rfl := Option.some.inj hstep
    exact hk.withJumps ((Array.size_setIfInBounds ..).trans hk.jumps)

omit [Scalar α] in
theorem contractStep_sized (c : α) {state next : Kruskal α × ℕ × ℕ} (hk : state.1.Sized n)
    (hstep : contractStep c state = some next) : next.1.Sized n := by
  obtain ⟨k, x, y⟩ := state
  rw [contractStep] at hstep
  split at hstep
  next => exact absurd hstep (by simp)
  next =>
    obtain rfl := Option.some.inj hstep
    apply climb_sized
    exact (hk.withReplacements ((Array.size_setIfInBounds ..).trans hk.replacements)).withJumps
      ((Array.size_setIfInBounds ..).trans hk.jumps)

theorem coverPath_sized (hk : k.Sized n) (e : Edge) : (coverPath k e).Sized n := by
  apply iterate_preserves (P := fun state : Kruskal α × ℕ × ℕ => state.1.Sized n)
  · exact fun state next hk hstep => contractStep_sized _ hk hstep
  · exact climb_sized (climb_sized hk e.1) e.2

theorem prepare_sized (hk : k.Sized n) (g : GraphVar) : (prepare g k).Sized n := by
  have hmaxima : (k.rootTree.computePathMaxima g).Sized n :=
    List.foldlRecOn (motive := Sized n) _ _ (rootTree_sized hk)
      fun k hk s _ => pathMaximaFrom_sized hk g s
  apply List.foldlRecOn (motive := Sized n)
  · exact (hmaxima.withReplacements (Array.size_replicate.trans hmaxima.replacements)).withJumps
      (Array.size_range.trans hmaxima.jumps)
  · exact fun k hk e _ => coverPath_sized hk e

theorem analyse_sized (hk : k.Sized n) (g : GraphVar) (budget : α) :
    (analyse g k budget).marginals.Square n := by
  let P : Analysis α → Prop := fun s => s.marginals.Square n
  have houtside : ∀ s e m, P s → P (s.noteOutside k.bound budget e m) := fun _ _ _ hs =>
    hs.putBoth _ _ _
  have hinside : ∀ s e m, P s → P (s.noteInside k.bound budget e m) := fun _ _ _ hs =>
    hs.putBoth _ _ _
  apply List.foldlRecOn (motive := P)
  · apply List.foldlRecOn (motive := P)
    · apply List.foldlRecOn (motive := P)
      · exact hk.marginals.fill _
      · exact fun s hs e _ => houtside s e _ hs
    · intro s hs v _
      rw [analyseParentEdge]
      dsimp only
      split
      · exact hs
      · exact hinside s _ _ hs
  · intro s hs v _
    rw [analyseDesignated]
    split_ifs
    · exact hs
    · exact hinside s _ _ hs
    · exact houtside s _ _ hs

theorem prune_sized (hk : k.Sized n) (budget : α) (g : GraphVar) :
    (prune budget).wp (fun _ s => s.propagator.Sized n) (fun _ s => s.propagator.Sized n)
      ⟨k, g⟩ := by
  have hprepared := prepare_sized hk g
  have hanalysed := analyse_sized hprepared g budget
  simp only [prune, Posted.update, Posted.onDomains, Attempt.wp_bind, Attempt.wp_get,
    Attempt.wp_ite, Attempt.wp_pure, Attempt.wp_throw, Attempt.wp_modify, Attempt.wp_within]
  refine ⟨fun _ => hk, fun _ => ?_⟩
  have hend : Sized n { prepare g k with analysis := analyse g (prepare g k) budget } :=
    hprepared.withAnalysis hanalysed
  apply Attempt.wp_mono (Attempt.wp_trivial _ _)
  · intro _ g₁ _
    apply Attempt.wp_mono (Attempt.wp_trivial _ _)
    · exact fun _ _ _ => hend
    · exact fun _ _ _ => hend
  · exact fun _ _ _ => hend

/-! ### Reachable states -/

/-- The states of a finder for graphs of one order, after runs on any costs and graphs. -/
inductive Reached (n : ℕ) : Kruskal α → Prop where
  | make : Reached n (make n)
  | compute {k : Kruskal α} (costs : Table α) (g : GraphVar) :
      Reached n k → Reached n ((compute costs g).after k)
  | prune {k : Kruskal α} (budget : α) (g : GraphVar) :
      Reached n k → Reached n ((prune budget).after ⟨k, g⟩).propagator

theorem Reached.sized (hk : Reached n k) : k.Sized n := by
  induction hk with
  | make => exact sized_make n
  | compute costs g _ ih => exact Attempt.after_of_wp (compute_sized ih costs g)
  | prune budget g _ ih =>
      exact Attempt.after_of_wp
        (P := fun s : Posted (Kruskal α) GraphVar => s.propagator.Sized n)
        (prune_sized ih budget g)

end Kruskal

end GraphInterval
