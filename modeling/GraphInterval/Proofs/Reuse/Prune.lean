import GraphInterval.Proofs.OneTree.Replacement
import GraphInterval.Proofs.Reuse.Kruskal

/-!
# The analysis of a used finder

The analysis writes parents, depths, path maxima and shortcuts before it reads
them, starts every walk with an empty stack and drops the decisions of an
earlier analysis before it makes its own.  A spanning tree is rooted at a node
in one way, and its weights determine the path maxima, so all cells of inner
nodes are the same in a used and in a new finder; the other cells are not read.
The walks that look for replacements stay at inner nodes.
-/

namespace GraphInterval

namespace Kruskal

open OneTree Attempt

variable {α : Type} [Scalar α] {n : ℕ} {costs : Table α} {g : GraphVar} {k l : Kruskal α}
variable {u v x y : ℕ}

/-! ### Equal cells at inner nodes -/

/-- The finders agree on the tree and on the cells of inner nodes. -/
structure Matched (n : ℕ) (k l : Kruskal α) : Prop where
  sized : k.Sized n
  sized' : l.Sized n
  tree_eq : k.tree = l.tree
  costs_eq : k.costs = l.costs
  nonTreeEdges_eq : k.nonTreeEdges = l.nonTreeEdges
  inner : ∀ e ∈ k.nonTreeEdges, e.1 ∈ innerNodes n ∧ e.2 ∈ innerNodes n
  parent_eq : ∀ v ∈ innerNodes n, k.parent v = l.parent v
  parent_mem : ∀ v ∈ innerNodes n, k.parent v ∈ innerNodes n
  depth_eq : ∀ v ∈ innerNodes n, k.depth v = l.depth v
  pathMaxima_eq : ∀ a ∈ innerNodes n, ∀ b ∈ innerNodes n,
    k.pathMaxima.entry a b Scalar.bottom = l.pathMaxima.entry a b Scalar.bottom

/-- One tree and one table of costs leave nothing open about inner nodes. -/
theorem matched_of_spans (hk : k.Spans n) (hl : l.Spans n) (h : Twins n costs k l)
    (hcosts : costs.Square n) (g : GraphVar) :
    Matched n (k.rootTree.computePathMaxima g) (l.rootTree.computePathMaxima g) := by
  have hs := hk.surveyed g
  have ht := hl.surveyed g
  generalize k.rootTree.computePathMaxima g = k' at *
  generalize l.rootTree.computePathMaxima g = l' at *
  have htree : k'.tree = l'.tree := hs.tree_eq.trans (h.tree_eq.trans ht.tree_eq.symm)
  have hcost : k'.costs = l'.costs := hs.costs_eq.trans ((h.costs_eq hcosts).trans ht.costs_eq.symm)
  have hreplaceable : k'.replaceableCost g = l'.replaceableCost g := by
    funext a b
    rw [replaceableCost, replaceableCost, hcost]
  have hrooted := ht.rooted
  have hgrows := ht.grows
  rw [← htree, ← hreplaceable] at hgrows
  have hroot' := hrooted.tree
  rw [← htree] at hroot'
  -- the two walks left ways to the root through one and the same tree
  have hparent : ∀ v ∈ innerNodes n, k'.parent v = l'.parent v := fun v hv =>
    hroot'.up_eq hs.rooted.tree hv
  refine ⟨hs.sized, ht.sized, htree, hcost, ?_, ?_, hparent, fun v hv => hs.rooted.tree.up_mem hv,
    fun v hv => ?_, fun a ha b hb => (hs.grows a ha).eq (hgrows a ha) hb⟩
  · exact hs.nonTreeEdges_eq.trans (h.nonTreeEdges_eq.trans ht.nonTreeEdges_eq.symm)
  · exact hs.nonTreeEdges_eq ▸ hk.inner
  · have hdepth : IsDepth (innerNodes n) root k'.parent l'.depth :=
      ⟨hrooted.depth.root_eq, fun v hv hvr => by rw [hparent v hv, hrooted.depth.next_eq v hv hvr]⟩
    exact hdepth.depth_eq hs.rooted.depth hs.rooted.tree hv

/-- New shortcuts and replacements in both finders. -/
theorem Matched.replace (h : Matched n k l) {replacements replacements' : Array α}
    {jumps jumps' : Array ℕ} (hreplacements : replacements.size = n)
    (hreplacements' : replacements'.size = n) (hjumps : jumps.size = n)
    (hjumps' : jumps'.size = n) :
    Matched n { k with replacements := replacements, jumps := jumps }
      { l with replacements := replacements', jumps := jumps' } :=
  { h with
    sized := (h.sized.withReplacements hreplacements).withJumps hjumps
    sized' := (h.sized'.withReplacements hreplacements').withJumps hjumps' }

/-! ### Walks side by side -/

/-- The walks took the same steps, and all shortcuts are between inner nodes. -/
structure Level (n : ℕ) (k l : Kruskal α) : Prop extends Matched n k l where
  replacements_eq : k.replacements = l.replacements
  jumps_eq : k.jumps = l.jumps
  jump_mem : ∀ v ∈ innerNodes n, k.jump v ∈ innerNodes n

/-- A new shortcut between inner nodes, the same in both finders. -/
theorem Level.setJump (h : Level n k l) (u : ℕ) (hx : x ∈ innerNodes n) :
    Level n { k with jumps := k.jumps.setIfInBounds u x }
      { l with jumps := l.jumps.setIfInBounds u x } := by
  refine ⟨h.toMatched.replace h.sized.replacements h.sized'.replacements
    (Array.size_setIfInBounds.trans h.sized.jumps) (Array.size_setIfInBounds.trans h.sized'.jumps),
    h.replacements_eq, ?_, fun v hv => ?_⟩
  · exact congrArg (Array.setIfInBounds · u x) h.jumps_eq
  · have hold := h.jump_mem v hv
    simp only [jump, Array.getD_eq_getD_getElem?, Array.getElem?_setIfInBounds] at hold ⊢
    by_cases huv : u = v
    · subst huv
      by_cases hlt : u < k.jumps.size
      · simpa [hlt] using hx
      · simpa [hlt] using hv
    · simpa [huv] using hold

/-- A new replacement, the same in both finders. -/
theorem Level.setReplacement (h : Level n k l) (u : ℕ) (c : α) :
    Level n { k with replacements := k.replacements.setIfInBounds u c }
      { l with replacements := l.replacements.setIfInBounds u c } := by
  refine ⟨h.toMatched.replace (Array.size_setIfInBounds.trans h.sized.replacements)
    (Array.size_setIfInBounds.trans h.sized'.replacements) h.sized.jumps h.sized'.jumps, ?_,
    h.jumps_eq, h.jump_mem⟩
  exact congrArg (Array.setIfInBounds · u c) h.replacements_eq

theorem Level.jump_eq (h : Level n k l) : l.jump = k.jump := by
  funext v
  rw [jump, jump, h.jumps_eq]

/-- Two walks stand at the same inner node. -/
def LevelAt (n : ℕ) (s t : Kruskal α × ℕ) : Prop :=
  s.2 = t.2 ∧ s.2 ∈ innerNodes n ∧ Level n s.1 t.1

theorem level_climb (h : Level n k l) (hv : v ∈ innerNodes n) :
    LevelAt n (k.climb v) (l.climb v) := by
  rw [climb, climb, ← h.tree_eq]
  have hstart : LevelAt n (k, v) (l, v) := ⟨rfl, hv, h⟩
  refine iterate_lockstep ?_ _ hstart
  rintro ⟨k, v⟩ ⟨l, w⟩ ⟨heq, hv, h⟩
  obtain rfl : v = w := heq
  have hnext := h.jump_mem _ (h.jump_mem v hv)
  simp only [climbStep, h.jump_eq]
  split
  · exact .none
  · exact .some ⟨rfl, hnext, h.setJump v hnext⟩

/-- Two contractions have come to the same inner nodes. -/
def LevelBetween (n : ℕ) (s t : Kruskal α × ℕ × ℕ) : Prop :=
  s.2 = t.2 ∧ s.2.1 ∈ innerNodes n ∧ s.2.2 ∈ innerNodes n ∧ Level n s.1 t.1

theorem level_contractStep (h : Level n k l) (hx : x ∈ innerNodes n) (hy : y ∈ innerNodes n)
    (c : α) :
    Option.Rel (LevelBetween n) (contractStep c (k, x, y)) (contractStep c (l, x, y)) := by
  have hmove : ∀ {x y}, x ∈ innerNodes n → y ∈ innerNodes n → LevelBetween n
      ((climb (cutAbove k c x) x).1, (climb (cutAbove k c x) x).2, y)
      ((climb (cutAbove l c x) x).1, (climb (cutAbove l c x) x).2, y) := by
    intro x y hx hy
    have hcut : Level n (cutAbove k c x) (cutAbove l c x) := by
      rw [cutAbove, cutAbove, ← h.parent_eq x hx]
      exact (h.setReplacement x c).setJump x (h.parent_mem x hx)
    obtain ⟨heq, hmem, hlevel⟩ := level_climb hcut hx
    exact ⟨Prod.ext heq rfl, hmem, hy, hlevel⟩
  simp only [contractStep, ← h.depth_eq x hx, ← h.depth_eq y hy]
  by_cases hxy : x = y
  · simp only [hxy, if_true]
    exact .none
  · by_cases hless : k.depth x < k.depth y
    · simp only [hxy, hless, if_true, if_false]
      exact .some (hmove hy hx)
    · simp only [hxy, hless, if_false]
      exact .some (hmove hx hy)

theorem level_coverPath (h : Level n k l) {e : Edge}
    (he : e.1 ∈ innerNodes n ∧ e.2 ∈ innerNodes n) :
    Level n (coverPath k e) (coverPath l e) := by
  obtain ⟨heq₁, hx, h₁⟩ := level_climb h he.1
  obtain ⟨heq₂, hy, h₂⟩ := level_climb h₁ he.2
  have hstart : LevelBetween n
      ((climb (k.climb e.1).1 e.2).1, (k.climb e.1).2, (climb (k.climb e.1).1 e.2).2)
      ((climb (l.climb e.1).1 e.2).1, (l.climb e.1).2, (climb (l.climb e.1).1 e.2).2) :=
    ⟨Prod.ext heq₁ heq₂, hx, hy, h₂⟩
  have hcost : k.costs.cost e.1 e.2 = l.costs.cost e.1 e.2 := by rw [h.costs_eq]
  have hbound : (climb (k.climb e.1).1 e.2).1.tree.order =
      (climb (l.climb e.1).1 e.2).1.tree.order := congrArg OneTree.order h₂.tree_eq
  simp only [coverPath, hcost, hbound]
  refine (iterate_lockstep (R := LevelBetween n) ?_ _ hstart).2.2.2
  rintro ⟨k, x, y⟩ ⟨l, z⟩ ⟨heq, hx, hy, h⟩
  obtain rfl : (x, y) = z := heq
  exact level_contractStep h hx hy _

theorem level_computeReplacements (h : Matched n k l) :
    Level n k.computeReplacements l.computeReplacements := by
  have hk := h.sized
  have hl := h.sized'
  have hstart : Level n
      { k with
        replacements := Array.replicate k.replacements.size Ranked.top
        jumps := Array.range k.jumps.size }
      { l with
        replacements := Array.replicate l.replacements.size Ranked.top
        jumps := Array.range l.jumps.size } := by
    refine ⟨h.replace (Array.size_replicate.trans hk.replacements)
      (Array.size_replicate.trans hl.replacements) (Array.size_range.trans hk.jumps)
      (Array.size_range.trans hl.jumps), ?_, ?_, fun v hv => ?_⟩
    · rw [hk.replacements, hl.replacements]
    · rw [hk.jumps, hl.jumps]
    · simp only [jump, Array.getD_eq_getD_getElem?, hk.jumps, Array.getElem?_range]
      split <;> exact hv
  have hfold := List.foldl_rel (r := Level n) (l := k.nonTreeEdges) (f := coverPath)
    (g := coverPath) hstart fun e he k l hlevel => level_coverPath hlevel (h.inner e he)
  exact (congrArg (fun edges => Level n _ (List.foldl coverPath _ edges)) h.nonTreeEdges_eq).mp
    hfold

/-! ### The analysis -/

theorem Level.analyseNonTree_eq (h : Level n k l) (budget : α) (s : Analysis α) {e : Edge}
    (he : e.1 ∈ innerNodes n ∧ e.2 ∈ innerNodes n) :
    analyseNonTree k budget s e = analyseNonTree l budget s e := by
  rw [analyseNonTree, analyseNonTree, bound, bound, h.tree_eq, h.costs_eq,
    h.pathMaxima_eq _ he.1 _ he.2]

theorem Level.analyseParentEdge_eq (h : Level n k l) (g : GraphVar) (budget : α) (s : Analysis α)
    (hv : v ∈ innerNodes n) :
    analyseParentEdge g k budget s v = analyseParentEdge g l budget s v := by
  rw [analyseParentEdge, analyseParentEdge, bound, bound, h.tree_eq, h.costs_eq,
    h.replacements_eq, h.parent_eq v hv]

/-- Whatever was decided before, no decision and no marginal cost is left. -/
theorem Sized.clear_eq (hk : k.Sized n) (hl : l.Sized n) :
    k.analysis.clear = l.analysis.clear := by
  have hfill : k.analysis.marginals.fill Ranked.top = l.analysis.marginals.fill Ranked.top :=
    (hk.marginals.fill_eq _).trans (hl.marginals.fill_eq _).symm
  rw [Analysis.clear, Analysis.clear, hfill]

theorem Level.analyse_eq (h : Level n k l) (g : GraphVar) (budget : α) :
    analyse g k budget = analyse g l budget := by
  have horder := h.sized.tree.order_eq
  have hextremes : designatedExtremes g k = designatedExtremes g l := by
    rw [designatedExtremes, designatedExtremes, h.tree_eq, h.costs_eq]
  have hdesignated : analyseDesignated g k budget = analyseDesignated g l budget := by
    funext extremes s v
    rw [analyseDesignated, analyseDesignated, bound, bound, h.tree_eq, h.costs_eq]
  have hinner : ∀ v ∈ List.range' 2 (k.tree.order - 2), v ∈ innerNodes n := by
    intro v hv
    rw [List.mem_range'_1, horder] at hv
    exact mem_innerNodes.mpr ⟨by rw [designated]; omega, by omega⟩
  have hnonTree : ∀ s, k.nonTreeEdges.foldl (analyseNonTree k budget) s =
      k.nonTreeEdges.foldl (analyseNonTree l budget) s := fun s =>
    List.foldl_ext _ _ s fun s e he => h.analyseNonTree_eq budget s (h.inner e he)
  have htree : ∀ s, (List.range' 2 (k.tree.order - 2)).foldl (analyseParentEdge g k budget) s =
      (List.range' 2 (k.tree.order - 2)).foldl (analyseParentEdge g l budget) s := fun s =>
    List.foldl_ext _ _ s fun s v hv => h.analyseParentEdge_eq g budget s (hinner v hv)
  rw [analyse, analyse, hextremes, hdesignated, h.sized.clear_eq h.sized', ← h.nonTreeEdges_eq,
    ← h.tree_eq, hnonTree, htree]

/-- The finders hold one tree and what its analysis came to. -/
def SameResult (k l : Kruskal α) : Prop := k.tree = l.tree ∧ k.analysis = l.analysis

/-- After computations that succeeded alike, two finders prune alike.  Only if a fault refuses the
analysis, the marginal costs are those of earlier runs. -/
theorem prune_alike (hk : k.Spans n) (hl : l.Spans n) (h : Twins n costs k l)
    (hcosts : costs.Square n) (budget : α) (g : GraphVar) :
    (prune budget).alike (prune budget) (fun _ => Posted.Same SameResult)
      (fun f => Posted.Same fun k l => (∀ cause, f ≠ .fault cause) → SameResult k l)
      ⟨k, g⟩ ⟨l, g⟩ := by
  have hlevel : Level n (k.prepare g) (l.prepare g) :=
    level_computeReplacements (matched_of_spans hk hl h hcosts g)
  have hanalysis := hlevel.analyse_eq g budget
  refine alike_get_bind ?_
  dsimp only
  refine alike_ite (by rw [analysable, analysable, h.tree_eq]) (fun _ => ?_) fun _ => ?_
  · exact alike_throw ⟨rfl, fun hf => absurd rfl (hf _)⟩
  rw [← hanalysis]
  have hsame : Posted.Same SameResult
      ⟨{ k.prepare g with analysis := analyse g (k.prepare g) budget }, g⟩
      ⟨{ l.prepare g with analysis := analyse g (k.prepare g) budget }, g⟩ :=
    ⟨rfl, hlevel.tree_eq, rfl⟩
  refine alike_mono (E := fun _ => Posted.Same SameResult) ?_ (fun _ _ _ h => h)
    fun _ _ _ h => ⟨h.domains, fun _ => h.propagator⟩
  refine alike_seq (alike_modify hsame) fun _ s t h => alike_get_bind ?_
  rw [h.propagator.2]
  refine alike_seq (Posted.alike_onDomains _ h) fun removed s t h => ?_
  exact alike_seq (Posted.alike_onDomains _ h) fun enforced s t h => alike_pure h

/-- What a caller of the analysis may look at: the one-tree and the marginal costs. -/
def result (s : Posted (Kruskal α) GraphVar) : OneTree α × Table α :=
  (s.propagator.tree, s.propagator.marginals)

omit [Scalar α] in
theorem result_eq {s t : Posted (Kruskal α) GraphVar} (h : SameResult s.propagator t.propagator) :
    result s = result t :=
  Prod.ext h.1 (congrArg Analysis.marginals h.2)

/-- A used finder whose computation succeeds prunes like a new one. -/
theorem Reached.prune_eq (hk : Reached n k) (hcosts : costs.Square n) (g : GraphVar)
    {k' : Kruskal α} (hcompute : Kruskal.compute costs g k = .ok () k') (budget : α) :
    ∃ l', Kruskal.compute costs g (Kruskal.make n) = .ok () l' ∧
      Posted.observed (Kruskal.prune budget) ⟨k', g⟩ =
        Posted.observed (Kruskal.prune budget) ⟨l', g⟩ ∧
      (Kruskal.prune budget).reported result ⟨k', g⟩ =
        (Kruskal.prune budget).reported result ⟨l', g⟩ := by
  have halike := compute_alike hk.sized (sized_make n) costs g
  unfold alike at halike
  rw [hcompute] at halike
  cases hnew : Kruskal.compute costs g (Kruskal.make n) with
  | error failure l' => simp only [hnew] at halike
  | ok value l' =>
    rw [hnew] at halike
    have hspans := of_wp_ok (compute_spans hk.sized costs g) hcompute
    have hspans' := of_wp_ok (compute_spans (sized_make n) costs g) hnew
    have hpruned := prune_alike hspans hspans' halike.2 hcosts budget g
    refine ⟨l', rfl, Posted.observed_eq (P := fun _ _ => True) ?_, reported_eq ?_⟩
    · exact alike_mono hpruned (fun _ _ _ h => ⟨h.domains, trivial⟩)
        fun _ _ _ h => ⟨h.domains, trivial⟩
    · exact alike_mono hpruned (fun _ _ _ h => result_eq h.propagator)
        fun _ _ _ h hf => result_eq (h.propagator hf)

end Kruskal

end GraphInterval
