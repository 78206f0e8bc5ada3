import GraphInterval.Proofs.OneTree.Pruning
import GraphInterval.Proofs.Tally
import GraphInterval.Proofs.Tour.Support

/-!
# The counters of the ascent

The propagator of a tour adds up what a pruning decided after it has ended, so
a pruning that failed half way would leave decisions that are not counted.  It
cannot fail: the one-tree was computed on the graph that is pruned.  Whatever
else stops a propagation stops it when everything in the log is counted.
-/

namespace GraphInterval

namespace Tour

variable {α : Type} [Scalar α] {n : ℕ} {s₀ s : Posted (Tour α) TourDomains}

/-- The propagator next to the graph alone. -/
def besideGraph (s : Posted (Tour α) TourDomains) : Posted (Tour α) GraphVar :=
  ⟨s.propagator, s.domains.graph⟩

/-- The finder has the size of the graph, and the counters agree with the log. -/
structure Tallying (n : ℕ) (s₀ s : Posted (Tour α) TourDomains) : Prop where
  thorough : s.propagator.thorough.Sized n
  tallied : Tallied EventKind.edgeEvents counters (besideGraph s₀) (besideGraph s)

omit [Scalar α] in
/-- A change of the propagator that leaves its counters, with any change of the cost. -/
theorem Tallying.replace {t : Tour α} {d : TourDomains} (h : Tallying n s₀ s)
    (hthorough : t.thorough.Sized n) (hgraph : d.graph = s.domains.graph)
    (hcounters : ∀ kind, t.counters.value? kind = s.propagator.counters.value? kind) :
    Tallying n s₀ ⟨t, d⟩ := by
  constructor
  · exact hthorough
  · have hbeside : besideGraph ⟨t, d⟩ = ⟨t, s.domains.graph⟩ := congrArg (Posted.mk t) hgraph
    rw [hbeside]
    exact h.tallied.replace hcounters

theorem raiseCost_tallying (h : Tallying n s₀ s) (bound : α) :
    (raiseCost bound : Run α α).wp
      (fun _ s' => Tallying n s₀ s' ∧ s'.propagator = s.propagator ∧
        s'.domains.graph = s.domains.graph)
      (fun _ s' => Tallying n s₀ s') s := by
  have hsame : ∀ s' : Posted (Tour α) TourDomains, s'.propagator = s.propagator →
      s'.domains.graph = s.domains.graph → Tallying n s₀ s' := by
    intro s' hpropagator hgraph
    apply h.replace (hpropagator ▸ h.thorough) hgraph
    intro kind
    rw [hpropagator]
  apply Attempt.wp_mono (raiseCost_keeps bound s)
  · exact fun _ s' h' => ⟨hsame s' h'.1 h'.2, h'⟩
  · exact fun _ s' h' => hsame s' h'.1 h'.2

theorem fastIteration_tallying (h : Tallying n s₀ s) :
    (fastIteration : Run α α).wp (fun _ s' => Tallying n s₀ s') (fun _ s' => Tallying n s₀ s')
      s := by
  rw [wp_fastIteration]
  apply Attempt.wp_mono (Attempt.wp_trivial _ _)
  · intro _ fast _
    have hcomputed : Tallying n s₀
        { s with propagator :=
          { s.propagator with
            numFastIterations := s.propagator.numFastIterations + 1, fast, support := .fast } } :=
      h.replace h.thorough rfl fun kind => by cases kind <;> rfl
    exact Attempt.wp_mono (raiseCost_tallying hcomputed _) (fun _ _ h' => h'.1) fun _ _ h' => h'
  · intro _ fast _
    exact h.replace h.thorough rfl fun kind => by cases kind <;> rfl

/-- A pruning after a computation on the same graph decides what it counts, and cannot fail. -/
theorem pruneGraph_tallying (hs₀ : s₀.domains.graph.IsUndirected n) (h : Tallying n s₀ s)
    (hspans : s.propagator.thorough.Spans n)
    (hplaced : s.propagator.thorough.Placed n s.domains.graph) (budget : α) :
    (pruneGraph budget).wp (fun _ s' => Tallying n s₀ s') (fun _ s' => Tallying n s₀ s') s := by
  have hs : s.domains.graph.IsUndirected n := hs₀.narrows h.tallied.narrows
  rw [wp_pruneGraph]
  apply Attempt.wp_mono (Attempt.wp_and
    (Kruskal.prune_total hspans hplaced hs.valid hs.order_eq hs.undirected budget)
    (Kruskal.prune_keeps h.thorough hs.valid budget)) _ fun _ _ hf => hf.1.elim
  intro pruned after hpruned
  obtain ⟨⟨-, -, hadds⟩, hsized, -, hnarrows⟩ := hpruned
  have hgains := GraphVar.Adds.gains (fun
    | .edgeRemoved => pruned.removed
    | .edgeEnforced => pruned.enforced
    | .nodeEnforced | .nodeRemoved => 0) hadds
  constructor
  · exact hsized
  · exact h.tallied.step hnarrows hgains fun kind _ => by cases kind <;> rfl

theorem pruningIteration_tallying (hs₀ : s₀.domains.graph.IsUndirected n) (h : Tallying n s₀ s) :
    (pruningIteration : Run α α).wp (fun _ s' => Tallying n s₀ s')
      (fun _ s' => Tallying n s₀ s') s := by
  have hs : s.domains.graph.IsUndirected n := hs₀.narrows h.tallied.narrows
  rw [wp_pruningIteration]
  apply Attempt.wp_mono (Attempt.wp_and (Kruskal.compute_sized h.thorough _ _) (Attempt.wp_and
    (Kruskal.compute_spans h.thorough s.propagator.costs s.domains.graph)
    (Kruskal.compute_placed h.thorough s.propagator.costs hs.valid hs.order_eq)))
  · intro _ thorough hthorough
    obtain ⟨hsized, hspans, hplaced⟩ := hthorough
    have hcomputed : Tallying n s₀
        { s with propagator :=
          { s.propagator with
            numPruningIterations := s.propagator.numPruningIterations + 1, thorough
            support := .thorough } } :=
      h.replace hsized rfl fun kind => by cases kind <;> rfl
    apply Attempt.wp_mono (raiseCost_tallying hcomputed _) _ fun _ _ h' => h'
    intro bound s' hraised
    obtain ⟨hs', hpropagator, hgraph⟩ := hraised
    apply pruneGraph_tallying hs₀ hs'
    · rw [hpropagator]
      exact hspans
    · rw [hpropagator, hgraph]
      exact hplaced
  · intro _ thorough hthorough
    exact h.replace hthorough.1 rfl fun kind => by cases kind <;> rfl

/-- A step counts extreme penalties only. -/
theorem ascend_tallying (h : Tallying n s₀ s) (alpha bound : α) :
    (ascend alpha bound).wp (fun _ s' => Tallying n s₀ s') (fun _ s' => Tallying n s₀ s') s := by
  rw [ascend, Attempt.wp_modify]
  generalize s.propagator.nextStep bound alpha s.domains.cost.upper = step
  dsimp only
  rw [updatePenalties]
  split
  · exact h.replace h.thorough rfl fun kind => by cases kind <;> rfl
  · split
    · exact h.replace h.thorough rfl fun kind => by cases kind <;> rfl
    · exact h.replace h.thorough rfl fun kind => by cases kind <;> rfl

/-! ### Propagations -/

/-- An ascent whose counters agree with the log. -/
def tallying (n : ℕ) (s₀ : Posted (Tour α) TourDomains) : Stages α :=
  { before := Tallying n s₀
    answered := fun _ => Tallying n s₀
    stepped := Tallying n s₀
    failed := fun _ => Tallying n s₀
    factor := fun _ => True }

theorem linked_tallying : (tallying n s₀).Linked := by
  constructor
  · exact fun _ h => ascend_tallying h _ _
  · exact fun h => h
  · exact fun h => h
  · exact fun h => h.replace h.thorough rfl fun kind => by cases kind <;> rfl
  · exact fun _ => ⟨trivial, trivial⟩
  · exact fun _ _ => trivial
  · exact fun _ => trivial

theorem propagateFromScratch_tallying {t : Tour α} {d : TourDomains}
    (ht : t.thorough.Sized n) (hd : d.graph.IsUndirected n) :
    (propagateFromScratch : Run α Unit).wp (fun _ s' => Tallying n ⟨t, d⟩ s')
      (fun _ s' => Tallying n ⟨t, d⟩ s') ⟨t, d⟩ := by
  have hstart : Tallying n ⟨t, d⟩ ⟨t, d⟩ := by
    constructor
    · exact ht
    · exact Tallied.refl rfl
  by_cases hwaits : t.isWaiting = true
  · simp only [propagateFromScratch, Attempt.wp_bind, Attempt.wp_get, Attempt.wp_ite,
      Attempt.wp_pure]
    exact ⟨fun _ => hstart, fun hactive => absurd hwaits hactive⟩
  · apply propagateFromScratch_of_active hwaits
    apply Attempt.wp_repeatWhile_of_step
    · intro s h
      exact linked_tallying.relaxOnce_wp (fun _ h => fastIteration_tallying h)
        (fun _ h => pruningIteration_tallying hd h) h
    · exact hstart.replace ht rfl fun kind => by cases kind <;> rfl

/-- The states of the propagator of tours over `n` nodes: it is posted, and then propagates on any
domains, with or without success, and hears of solutions. -/
inductive Engaged (n : ℕ) : Tour α → Prop where
  | make {rows : List (List ℤ)} {options : AscentOptions α} {d : TourDomains} {t : Tour α} :
      d.graph.order = n → Tour.make rows options d = .ok t → Engaged n t
  | propagate {t : Tour α} {d : TourDomains} : Engaged n t → d.graph.Reachable →
      d.graph.order = n → d.graph.directed = false →
      Engaged n (propagateFromScratch.after ⟨t, d⟩).propagator
  | onSolution {t : Tour α} : Engaged n t → Engaged n t.onSolution

theorem Engaged.sized {t : Tour α} (ht : Engaged n t) : t.thorough.Sized n := by
  induction ht with
  | make horder hmake =>
      obtain ⟨-, rfl⟩ := of_make horder hmake
      exact Kruskal.sized_make n
  | propagate _ hd horder hundirected ih =>
      exact (Attempt.after_of_wp
        (propagateFromScratch_tallying ih ⟨hd.valid, horder, hundirected⟩)).thorough
  | onSolution _ ih => exact ih

end Tour

end GraphInterval
