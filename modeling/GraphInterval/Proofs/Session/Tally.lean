import GraphInterval.Proofs.Connectivity.Exact
import GraphInterval.Proofs.Degree.Filter
import GraphInterval.Proofs.Tour.Tally
import GraphInterval.Proofs.Transitivity.Termination
import GraphInterval.Session

/-!
# The counters of the propagators

Transitivity and the bounded degrees count a mutation if it answers that it
changed something.  A node above its bound is counted without asking, but its
removal fails.  Connectivity counts without asking as well, and there every
mutation that succeeds does change something: a node is removed while it is
possible, enforced while it is not mandatory, and visited once.
-/

namespace GraphInterval

open Attempt (Keeps keeps_get keeps_pure)

/-! ### Transitivity -/

namespace Transitivity

variable {s₀ : State}

theorem keepsTally_enforce (hs₀ : s₀.domains.Valid) (a b : ℕ) :
    KeepsTally EventKind.edgeEvents counters s₀ (enforce a b) :=
  keepsTally_mutation hs₀ (fun _ hg => GraphVar.enforceEdge_gains hg a b)
    fun _ kind => by cases kind <;> rfl

theorem keepsTally_remove (hs₀ : s₀.domains.Valid) (a b : ℕ) :
    KeepsTally EventKind.edgeEvents counters s₀ (remove a b) :=
  keepsTally_mutation hs₀ (fun g _ => GraphVar.removeEdge_gains _ g a b)
    fun _ kind => by cases kind <;> rfl

theorem keepsTally_processNext (hs₀ : s₀.domains.Valid) :
    KeepsTally EventKind.edgeEvents counters s₀ processNext := by
  unfold processNext
  apply keeps_get.bind
  intro s
  dsimp only
  split
  · have hdrawn := edgeEnforced_keeps (fun _ _ h => h.replace fun _ => rfl)
      (keepsTally_enforce hs₀) (keepsTally_remove hs₀)
    exact KeepsTally.adjusted ((hdrawn _ _).bind fun _ => keeps_pure true) fun _ _ => rfl
  · have hdrawn := edgeRemoved_keeps (fun _ _ h => h.replace fun _ => rfl)
      (keepsTally_remove hs₀)
    exact KeepsTally.adjusted ((hdrawn _ _).bind fun _ => keeps_pure true) fun _ _ => rfl
  · exact keeps_pure false

theorem keepsTally_filterWindow (hs₀ : s₀.domains.Valid) :
    KeepsTally EventKind.edgeEvents counters s₀ filterWindow := by
  have hfilter : KeepsTally EventKind.edgeEvents counters s₀ filter := by
    unfold filter
    apply keeps_get.bind
    exact fun _ => Keeps.repeatWhile (keepsTally_processNext hs₀) _
  intro s hs
  rw [filterWindow, Attempt.wp_ensuring]
  apply Attempt.wp_mono (hfilter s hs)
  · exact fun _ _ h => h.replace fun _ => rfl
  · exact fun _ _ h => h.replace fun _ => rfl

theorem counters_foldl_enqueueEdge (g : GraphVar) (edges : List Edge) (t : Transitivity) :
    (edges.foldl (enqueueEdge g) t).counters = t.counters := by
  apply List.foldlRecOn (motive := fun t' : Transitivity => t'.counters = t.counters)
  · rfl
  · intro t' ht' e _
    unfold enqueueEdge
    split_ifs
    · exact ht'
    · exact ht'
    · exact ht'

theorem counters_foldl_enqueueEvent (events : List Event) (t : Transitivity) :
    (events.foldl enqueueEvent t).counters = t.counters := by
  apply List.foldlRecOn (motive := fun t' : Transitivity => t'.counters = t.counters)
  · rfl
  · intro t' ht' event _
    cases event with
    | edgeEnforced | edgeRemoved | nodeEnforced | nodeRemoved => exact ht'

theorem counters_openWindow {g : GraphVar} {t t' : Transitivity}
    (h : openWindow g t = .ok t') : t'.counters = t.counters := by
  unfold openWindow at h
  cases hfreeze : t.monitor.freeze g.numEvents with
  | error fault => simp [hfreeze, bind, Except.bind] at h
  | ok monitor =>
      cases hreplay : monitor.replay g.events EventKind.edgeEvents with
      | error fault => simp [hfreeze, hreplay, bind, Except.bind] at h
      | ok events =>
          simp only [hfreeze, hreplay, bind, Except.bind, pure, Except.pure] at h
          rw [← Except.ok.inj h]
          exact counters_foldl_enqueueEvent events _

theorem keepsTally_propagateFromScratch (hs₀ : s₀.domains.Valid) :
    KeepsTally EventKind.edgeEvents counters s₀ propagateFromScratch := by
  unfold propagateFromScratch
  refine KeepsTally.adjusted (keeps_get.bind fun s => ?_) fun _ kind => by cases kind <;> rfl
  apply (keepsTally_filterWindow hs₀).adjusted
  intro t kind
  rw [counters_foldl_enqueueEdge]

theorem keepsTally_propagate (hs₀ : s₀.domains.Valid) :
    KeepsTally EventKind.edgeEvents counters s₀ propagate := by
  unfold propagate
  apply keeps_get.bind
  intro s
  apply Keeps.ite (keepsTally_propagateFromScratch hs₀)
  apply KeepsTally.adjusted _ fun _ kind => by cases kind <;> rfl
  intro t ht
  rw [Attempt.wp_bind, Attempt.wp_get]
  cases hopen : openWindow t.domains t.propagator with
  | error fault => exact ht
  | ok t' =>
      have hcounters := counters_openWindow hopen
      have ht' := ht.replace (p := t') fun kind => by rw [hcounters]
      exact keepsTally_filterWindow hs₀ _ ht'

end Transitivity

/-! ### Bounded degrees -/

namespace DegreeLimit

variable {s₀ : State}

/-- The kinds of the events that the propagator counts. -/
def countedKinds : List EventKind := [.edgeRemoved, .nodeRemoved]

theorem keepsTally_removeOptional (hs₀ : s₀.domains.Valid) (o : Orientation) (v w : ℕ) :
    KeepsTally countedKinds counters s₀ (removeOptional o v w) := by
  have hm : ∀ g : GraphVar, g.Valid → (removeIncident o v w).wp
      (fun changed g' => g.Narrows g' ∧
        g.Gains countedKinds (EventKind.edgeRemoved.once changed) g')
      (fun _ g' => g' = g) g := by
    intro g _
    rw [removeIncident_eq]
    exact GraphVar.removeEdge_gains _ g _ _
  exact keepsTally_mutation hs₀ hm fun _ kind => by cases kind <;> rfl

/-- A node above its bound has a mandatory edge, so that it cannot be removed. -/
theorem keepsTally_limitNode (hs₀ : s₀.domains.Valid) (v : ℕ) :
    KeepsTally countedKinds counters s₀ (limitNode v) := by
  intro s hs
  have hvalid := hs.narrows.valid hs₀
  rw [limitNode, Attempt.wp_bind, Attempt.wp_get]
  dsimp only
  rw [Attempt.wp_ite]
  constructor
  · intro hexceeds
    have hmandatory := hasNode_of_degree_pos hvalid.lower (Nat.zero_lt_of_lt hexceeds)
    rw [Attempt.wp_bind, Posted.onDomains, Attempt.wp_within, GraphVar.removeNode,
      Attempt.wp_bind, Attempt.wp_get, Attempt.wp_ite]
    exact ⟨fun _ => hs, fun hnot => absurd hmandatory hnot⟩
  · intro _
    refine Keeps.ite (Posted.keeps_visitEach ?_ fun w => ?_) (keeps_pure ()) s hs
    · exact fun _ _ h => h.replace fun _ => rfl
    · exact keepsTally_removeOptional hs₀ s.propagator.orientation v w

theorem keepsTally_propagateFromScratch (hs₀ : s₀.domains.Valid) :
    KeepsTally countedKinds counters s₀ propagateFromScratch := by
  refine KeepsTally.adjusted (Posted.keeps_visitEach ?_ (keepsTally_limitNode hs₀))
    fun _ kind => by cases kind <;> rfl
  exact fun _ _ h => h.replace fun _ => rfl

end DegreeLimit

/-! ### Connected graphs -/

namespace Connectivity

variable {s₀ s : State}

/-- A search leaves the graph and the counters. -/
theorem explore_tallied (hs : Tallied EventKind.nodeEvents counters s₀ s) (root : ℕ)
    (excluded : Option ℕ) :
    (explore root excluded).wp
      (fun _ s' => Tallied EventKind.nodeEvents counters s₀ s' ∧ s'.domains = s.domains)
      (fun _ _ => False) s := by
  rw [explore, Attempt.wp_bind, Attempt.wp_get]
  exact ⟨hs.replace fun _ => rfl, rfl⟩

theorem removeUnreached_tallied (hs₀ : s₀.domains.Valid)
    (hs : Tallied EventKind.nodeEvents counters s₀ s) {v : ℕ}
    (hv : s.domains.isPotentialNode v = true) :
    (removeUnreached v).wp
      (fun _ s' => Tallied EventKind.nodeEvents counters s₀ s' ∧
        ∀ x, x ≠ v → s'.domains.isPotentialNode x = s.domains.isPotentialNode x)
      (fun _ s' => Tallied EventKind.nodeEvents counters s₀ s') s :=
  hs.wp_decision (GraphVar.removeNode_gains (hs.narrows.valid hs₀) hv)
    fun _ kind => by cases kind <;> rfl

theorem enforceSeparator_tallied (hs₀ : s₀.domains.Valid)
    (hs : Tallied EventKind.nodeEvents counters s₀ s) (root : ℕ) {v : ℕ}
    (hv : s.domains.isMandatoryNode v = false) :
    (enforceSeparator root v).wp
      (fun _ s' => Tallied EventKind.nodeEvents counters s₀ s' ∧
        ∀ x, x ≠ v → s'.domains.isMandatoryNode x = s.domains.isMandatoryNode x)
      (fun _ s' => Tallied EventKind.nodeEvents counters s₀ s') s := by
  rw [enforceSeparator, Attempt.wp_bind]
  apply Attempt.wp_mono (explore_tallied hs root (some v)) _ fun _ _ h => h.elim
  intro search t h
  obtain ⟨ht, hdomains⟩ := h
  rw [Attempt.wp_bind, Attempt.wp_get, Attempt.wp_ite]
  constructor
  · intro _
    rw [← hdomains] at hv ⊢
    exact ht.wp_decision (GraphVar.enforceNode_gains _ (ht.narrows.valid hs₀) hv)
      fun _ kind => by cases kind <;> rfl
  · intro _
    exact ⟨ht, fun x _ => by rw [hdomains]⟩

/-- Only possible nodes are removed, only other than mandatory ones are enforced, and each of them
once, so every mutation that succeeds is an event. -/
theorem keepsTally_propagateFromScratch (hs₀ : s₀.domains.Valid) :
    KeepsTally EventKind.nodeEvents counters s₀ propagateFromScratch := by
  refine KeepsTally.adjusted (keeps_get.bind fun s => ?_) fun _ kind => by cases kind <;> rfl
  split
  next => exact keeps_pure ()
  next root _ =>
    intro t ht
    rw [Attempt.wp_bind]
    apply Attempt.wp_mono (explore_tallied ht root none) _ fun _ _ h => h.elim
    intro search u h
    obtain ⟨hu, -⟩ := h
    have hvalid := hu.narrows.valid hs₀
    rw [Attempt.wp_bind, Attempt.wp_get, Attempt.wp_ite]
    refine ⟨fun _ => hu, fun _ => ?_⟩
    rw [Attempt.wp_bind]
    apply Attempt.wp_mono (wp_visitEach_of_status GraphVar.isPotentialNode true
      (fun _ _ _ => rfl) (fun v s hs hv => removeUnreached_tallied hs₀ hs hv)
      ((SparseSet.nodup_toList hvalid.upper.nodes).filter _) ?_ hu) _ fun _ _ h => h
    · intro v hv
      exact (Graph.mem_nodes hvalid.upper).mp (List.mem_filter.mp hv).1
    intro _ w hw
    have hvalid' := hw.narrows.valid hs₀
    rw [Attempt.wp_bind, Attempt.wp_get, Attempt.wp_ite]
    refine ⟨fun _ => hw, fun _ => ?_⟩
    apply wp_visitEach_of_status GraphVar.isMandatoryNode false
      (fun _ _ _ => rfl) (fun v s hs hv => enforceSeparator_tallied hs₀ hs root hv)
      ((SparseSet.nodup_toList hvalid'.upper.nodes).filter _) ?_ hw
    intro v hv
    simpa using (List.mem_filter.mp hv).2

end Connectivity

/-! ### All propagators -/

namespace Propagator

/-- The kinds of the events that a propagator counts. -/
def countedKinds : Propagator → List EventKind
  | transitivity _ => EventKind.edgeEvents
  | connectivity _ => EventKind.nodeEvents
  | degree _ => DegreeLimit.countedKinds

variable {g : GraphVar}

theorem propagateFromScratch_tallied (hg : g.Valid) (p : Propagator) :
    propagateFromScratch.wp (fun _ s => Tallied p.countedKinds counters ⟨p, g⟩ s)
      (fun _ s => Tallied p.countedKinds counters ⟨p, g⟩ s) ⟨p, g⟩ := by
  rw [propagateFromScratch, Attempt.wp_bind, Attempt.wp_get]
  cases p with
  | transitivity t =>
      exact (Transitivity.keepsTally_propagateFromScratch hg).wrapped (fun _ => rfl) rfl
  | connectivity c =>
      exact (Connectivity.keepsTally_propagateFromScratch hg).wrapped (fun _ => rfl) rfl
  | degree limit =>
      exact (DegreeLimit.keepsTally_propagateFromScratch hg).wrapped (fun _ => rfl) rfl

theorem propagate_tallied (hg : g.Valid) (p : Propagator) :
    propagate.wp (fun _ s => Tallied p.countedKinds counters ⟨p, g⟩ s)
      (fun _ s => Tallied p.countedKinds counters ⟨p, g⟩ s) ⟨p, g⟩ := by
  rw [propagate, Attempt.wp_bind, Attempt.wp_get]
  cases p with
  | transitivity t => exact (Transitivity.keepsTally_propagate hg).wrapped (fun _ => rfl) rfl
  | connectivity c => exact propagateFromScratch_tallied hg (connectivity c)
  | degree limit => exact propagateFromScratch_tallied hg (degree limit)

end Propagator

/-- However a propagation ends, the counters of decisions rose by the numbers of events of their
kinds that it logged. -/
theorem propagations_count_events :
    (∀ g : GraphVar, g.Reachable → ∀ p : Propagator,
      ∀ run ∈ [Propagator.propagate, Propagator.propagateFromScratch],
        CountsEvents p.countedKinds p.counters g (run.after ⟨p, g⟩).propagator.counters
          (run.after ⟨p, g⟩).domains) ∧
    ∀ (α : Type) [Scalar α] (n : ℕ) (t : Tour α) (d : TourDomains), Tour.Engaged n t →
      d.graph.Reachable → d.graph.order = n → d.graph.directed = false →
        CountsEvents EventKind.edgeEvents t.counters d.graph
          (Tour.propagateFromScratch.after ⟨t, d⟩).propagator.counters
          (Tour.propagateFromScratch.after ⟨t, d⟩).domains.graph := by
  constructor
  · intro g hg p run hrun
    obtain rfl | rfl : run = Propagator.propagate ∨ run = Propagator.propagateFromScratch := by
      simpa using hrun
    · exact (Attempt.after_of_wp (Propagator.propagate_tallied hg.valid p)).counts
    · exact (Attempt.after_of_wp (Propagator.propagateFromScratch_tallied hg.valid p)).counts
  · intro α _ n t d ht hd horder hundirected
    have hundirected' : d.graph.IsUndirected n := ⟨hd.valid, horder, hundirected⟩
    exact (Attempt.after_of_wp
      (Tour.propagateFromScratch_tallying ht.sized hundirected')).tallied.counts

/-- Both runs fail after decisions.  A node at its bound loses two edges before its neighbour is
found to be above its bound, and a tour loses an edge and gets three before it is found too
expensive. -/
theorem propagations_count_events_failing :
    let g := OneTree.completeFour [(0, 1), (1, 2)]
    let p : Propagator := .degree { orientation := .neighbours, bounds := #[1, 1, 1, 1] }
    let d : TourDomains :=
      { graph := (GraphVar.Mutation.removeEdge 2 3).run.after (OneTree.completeFour [(1, 2)])
        cost := { lower := 0, upper := 5, trail := {} } }
    let rows : List (List ℤ) := [[0, 1, 1, 5], [1, 0, 1, 1], [1, 1, 0, 5], [5, 1, 5, 0]]
    let o : AscentOptions ℚ :=
      { waitForFirstSolution := false, numSprints := 0, numOuterIterations := 2
        initialAlpha := 2, initialBeta := 1 / 2, integralityTolerance := 1 / 1000
        pruningEpsilon := 1 / 1000, stagnationOffset := 1 / 10 }
    (g.Reachable ∧ ∃ s news, Propagator.propagate ⟨p, g⟩ = .error .wipeout s ∧
      s.domains.events = g.events ++ news ∧ news.countP (·.kind == .edgeRemoved) = 2) ∧
    d.graph.Reachable ∧ ∃ t s news, Tour.make rows o.exact d = .ok t ∧ Tour.Engaged 4 t ∧
      Tour.propagateFromScratch ⟨t, d⟩ = .error .wipeout s ∧
      s.domains.graph.events = d.graph.events ++ news ∧
      news.countP (·.kind == .edgeRemoved) = 1 ∧ news.countP (·.kind == .edgeEnforced) = 3 := by
  intro g p d rows o
  obtain ⟨hpropagators, htours⟩ := propagations_count_events
  have hg : g.Reachable := OneTree.reachable_completeFour _
  have hd : d.graph.Reachable :=
    .mutate (.removeEdge 2 3) (OneTree.reachable_completeFour [(1, 2)])
  refine ⟨⟨hg, ?_⟩, hd, ?_⟩
  · have hfails : Propagator.propagate.failsWith .wipeout ⟨p, g⟩ = true := by decide +kernel
    have hcounter : (Propagator.propagate.after ⟨p, g⟩).propagator.counters.value? .edgeRemoved =
        some (0 + 2) := by decide +kernel
    have hcounts := hpropagators g hg p Propagator.propagate List.mem_cons_self
    obtain ⟨news, hevents, hcount⟩ := hcounts.countP_eq
    obtain ⟨s, hrun⟩ := Attempt.failsWith_iff.mp hfails
    have hs : Propagator.propagate.after ⟨p, g⟩ = s := by rw [Attempt.after, hrun]
    exact ⟨s, news, hrun, hs ▸ hevents, hcount .edgeRemoved List.mem_cons_self 0 2 rfl hcounter⟩
  · have heval : ((Tour.make rows o.exact d).toOption.any fun t =>
        Tour.propagateFromScratch.failsWith .wipeout ⟨t, d⟩ &&
          (Tour.propagateFromScratch.after ⟨t, d⟩).propagator.counters.value? .edgeRemoved ==
            some (0 + 1) &&
          (Tour.propagateFromScratch.after ⟨t, d⟩).propagator.counters.value? .edgeEnforced ==
            some (0 + 3)) = true := by decide +kernel
    obtain ⟨t, hmake⟩ : ∃ t, Tour.make rows o.exact d = .ok t := ⟨_, rfl⟩
    have ht : Tour.Engaged 4 t := .make rfl hmake
    simp only [hmake, Except.toOption, Option.any_some, Bool.and_eq_true, beq_iff_eq] at heval
    obtain ⟨⟨hfails, hremoved⟩, henforced⟩ := heval
    have hcounts := htours Exact 4 t d ht hd rfl rfl
    obtain ⟨news, hevents, hcount⟩ := hcounts.countP_eq
    obtain ⟨s, hrun⟩ := Attempt.failsWith_iff.mp hfails
    have hs : Tour.propagateFromScratch.after ⟨t, d⟩ = s := by rw [Attempt.after, hrun]
    have hzero : ∀ kind ∈ EventKind.edgeEvents, t.counters.value? kind = some 0 := by
      obtain ⟨-, rfl⟩ := Tour.of_make (rfl : d.graph.order = 4) hmake
      decide
    refine ⟨t, s, news, hmake, ht, hrun, hs ▸ hevents, ?_, ?_⟩
    · exact hcount .edgeRemoved (by decide) 0 1 (hzero _ (by decide)) hremoved
    · exact hcount .edgeEnforced (by decide) 0 3 (hzero _ (by decide)) henforced

end GraphInterval
