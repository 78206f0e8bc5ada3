import GraphInterval.Proofs.Session.Contract

/-!
# Schedules of propagations

A schedule runs the propagators of a session one after the other, in any order
and any number of times.  A stable variable that lies in the domain at the
start lies in it at the end, so a schedule that runs until nothing changes
arrives at the largest domain that is stable under all constraints, and a
schedule fails only if there is none.  Neither depends on the schedule.
-/

namespace GraphInterval

namespace Session

variable {s s' s₁ s₂ : Session GraphVar} {p : Propagator} {h : GraphVar} {index : Nat}
  {schedule : List Nat}

/-- No rule of any constraint applies. -/
def Stable (s : Session GraphVar) (h : GraphVar) : Prop :=
  ∀ (index : Nat) (p : Propagator), s.propagators[index]? = some p → p.Stable h

/-- All propagators were posted on a variable of this size and kind. -/
def Suits (s : Session GraphVar) : Prop :=
  ∀ (index : Nat) (p : Propagator), s.propagators[index]? = some p → p.Suits s.graph

/-- Propagates the whole graph with the listed propagators in turn. -/
def follow (schedule : List Nat) : Attempt (Session GraphVar) Unit :=
  schedule.forM propagateFromScratch

/-- Every propagator succeeds on the whole graph without an event. -/
def AtFixpoint (s : Session GraphVar) : Prop :=
  ∀ index < s.propagators.size, ∃ s', propagateFromScratch index s = .ok () s' ∧
    s'.graph.events = s.graph.events

/-- Whether a propagator succeeds on the whole graph without an event. -/
def isIdle (index : Nat) (s : Session GraphVar) : Bool :=
  (propagateFromScratch index).passes (fun _ s' => s'.graph.events == s.graph.events) s

theorem isIdle_iff : isIdle index s = true ↔
    ∃ s', propagateFromScratch index s = .ok () s' ∧ s'.graph.events = s.graph.events := by
  rw [isIdle, Attempt.passes_iff]
  simp only [beq_iff_eq]
  exact ⟨fun ⟨_, s', h⟩ => ⟨s', h⟩, fun ⟨s', h⟩ => ⟨(), s', h⟩⟩

instance (s : Session GraphVar) : Decidable s.AtFixpoint :=
  decidable_of_iff (∀ index < s.propagators.size, isIdle index s = true)
    (forall₂_congr fun _ _ => isIdle_iff)

/-- A schedule of the propagators that stops early or runs until nothing changes. -/
structure IsComplete (schedule : List Nat) (s : Session GraphVar) : Prop where
  lt_size : ∀ index ∈ schedule, index < s.propagators.size
  atFixpoint : ∀ s', follow schedule s = .ok () s' → s'.AtFixpoint

instance (schedule : List Nat) (s : Session GraphVar) : Decidable (IsComplete schedule s) :=
  match hrun : follow schedule s with
  | .ok _ s₁ =>
      decidable_of_iff ((∀ index ∈ schedule, index < s.propagators.size) ∧ s₁.AtFixpoint) (by
        refine ⟨fun h => ⟨h.1, fun s' hs' => ?_⟩, fun h => ⟨h.lt_size, h.atFixpoint s₁ hrun⟩⟩
        rw [hrun] at hs'
        cases hs'
        exact h.2)
  | .error _ _ =>
      decidable_of_iff (∀ index ∈ schedule, index < s.propagators.size) (by
        refine ⟨fun h => ⟨h, fun s' hs' => ?_⟩, fun h => h.lt_size⟩
        rw [hrun] at hs'
        cases hs')

/-- Propagations lead from one session to another. -/
structure Advances (s s' : Session GraphVar) : Prop where
  narrows : s.graph.Narrows s'.graph
  size_eq : s'.propagators.size = s.propagators.size
  suits : s'.Suits
  stable_iff : ∀ h, s'.Stable h ↔ s.Stable h
  widest : ∀ h : GraphVar, h.Valid → s.Stable h → h.Refines s.graph → h.Refines s'.graph

/-- No stable variable lies in the domain, and no contract was broken. -/
structure Rejects (s : Session GraphVar) (failure : Failure) : Prop where
  not_fault : ∀ fault, failure ≠ .fault fault
  empty : ∀ h : GraphVar, h.Valid → s.Stable h → ¬ h.Refines s.graph

theorem Advances.refl (hs : s.Suits) : Advances s s :=
  ⟨.refl, rfl, hs, fun _ => Iff.rfl, fun _ _ _ href => href⟩

theorem Advances.trans (h₁ : Advances s s₁) (h₂ : Advances s₁ s₂) : Advances s s₂ := by
  refine ⟨h₁.narrows.trans h₂.narrows, h₂.size_eq.trans h₁.size_eq, h₂.suits,
    fun h => (h₂.stable_iff h).trans (h₁.stable_iff h), fun h hh hstable href => ?_⟩
  exact h₂.widest h hh ((h₁.stable_iff h).mpr hstable) (h₁.widest h hh hstable href)

/-! ### One propagation -/

/-- A propagator that still has its constraint can take the place of what it was. -/
theorem stable_returned_iff {t : Propagator.State} (hp : s.propagators[index]? = some p)
    (ht : p.Follows s.domains t) (h : GraphVar) :
    (s.returned index t).Stable h ↔ s.Stable h := by
  have hindex : index < s.propagators.size := (Array.getElem?_eq_some_iff.mp hp).1
  constructor
  · intro hstable i q hq
    by_cases hi : index = i
    · obtain rfl : p = q := Option.some.inj (hp.symm.trans (hi ▸ hq))
      refine (ht.stable_iff h).mp (hstable i t.propagator ?_)
      rw [propagators_returned s index t hindex, if_pos hi]
    · refine hstable i q ?_
      rw [propagators_returned s index t hindex, if_neg hi]
      exact hq
  · intro hstable i q hq
    rw [propagators_returned s index t hindex] at hq
    split at hq
    next =>
      obtain rfl := Option.some.inj hq
      exact (ht.stable_iff h).mpr (hstable index p hp)
    next => exact hstable i q hq

theorem suits_returned {t : Propagator.State} (hg : s.graph.Valid) (hs : s.Suits)
    (hp : s.propagators[index]? = some p) (ht : p.Follows s.domains t) :
    (s.returned index t).Suits := by
  have hindex : index < s.propagators.size := (Array.getElem?_eq_some_iff.mp hp).1
  intro i q hq
  rw [propagators_returned s index t hindex] at hq
  split at hq
  next =>
    obtain rfl := Option.some.inj hq
    exact ht.suits
  next =>
    exact (hs i q hq).congr (ht.narrows.order hg) (ht.narrows.directed hg)

theorem propagateFromScratch_wp (hg : s.graph.Valid) (hs : s.Suits)
    (hindex : index < s.propagators.size) :
    (propagateFromScratch index).wp (fun _ s' => Advances s s') (fun failure _ => Rejects s failure)
      s := by
  have hp : s.propagators[index]? = some s.propagators[index] := Array.getElem?_eq_getElem hindex
  rw [propagateFromScratch, Attempt.wp_ensuring, propagation_wp hp]
  refine Attempt.wp_mono (Propagator.propagateFromScratch_wp hg (hs _ _ hp)) ?_ ?_
  · intro _ t ht
    refine ⟨ht.narrows, Array.size_setIfInBounds, suits_returned hg hs hp ht.toFollows,
      stable_returned_iff hp ht.toFollows, fun h hh hstable href => ?_⟩
    exact ht.widest h hh (hstable _ _ hp) href
  · intro failure t ht
    exact ⟨ht.not_fault, fun h hh hstable => ht.empty h hh (hstable _ _ hp)⟩

/-! ### A schedule -/

theorem follow_wp (hg : s.graph.Valid) (hs : s.Suits)
    (hschedule : ∀ index ∈ schedule, index < s.propagators.size) :
    (follow schedule).wp (fun _ s' => Advances s s') (fun failure _ => Rejects s failure) s := by
  refine Attempt.wp_forM_keep (I := Advances s) (fun index hmem t hadvances => ?_) (.refl hs)
  have hindex : index < t.propagators.size := hadvances.size_eq.symm ▸ hschedule index hmem
  refine Attempt.wp_mono (propagateFromScratch_wp (hadvances.narrows.valid hg) hadvances.suits
    hindex) ?_ ?_
  · exact fun _ _ ht' => hadvances.trans ht'
  · intro failure _ hrejects
    refine ⟨hrejects.not_fault, fun h hh hstable href => ?_⟩
    exact hrejects.empty h hh ((hadvances.stable_iff h).mpr hstable)
      (hadvances.widest h hh hstable href)

/-- Where no propagator has anything to do, the graph is stable under all constraints. -/
theorem AtFixpoint.stable (hg : s.graph.Valid) (hs : s.Suits) (h : s.AtFixpoint) :
    s.Stable s.graph := by
  intro index p hp
  obtain ⟨hindex, -⟩ := Array.getElem?_eq_some_iff.mp hp
  obtain ⟨s', hrun, hevents⟩ := h index hindex
  have hwp : (propagateFromScratch index).wp
      (fun _ s' => s.graph.Narrows s'.graph ∧ p.Stable s'.graph) (fun _ _ => True) s := by
    rw [propagateFromScratch, Attempt.wp_ensuring, propagation_wp hp]
    exact Attempt.wp_mono (Propagator.propagateFromScratch_wp hg (hs _ _ hp))
      (fun _ _ ht => ⟨ht.narrows, ht.stable⟩) fun _ _ _ => trivial
  obtain ⟨hnarrows, hstable⟩ := Attempt.of_wp_ok hwp hrun
  have hsame : s'.graph = s.graph := hnarrows.eq_of_numEvents (by
    simpa [GraphVar.events, GraphVar.numEvents] using congrArg List.length hevents)
  rwa [hsame] at hstable

/-- The state at the end of a complete schedule is refined by that of any other one. -/
theorem IsComplete.stable_graph (hg : s.graph.Valid) (hs : s.Suits)
    (hcomplete : IsComplete schedule s) (hrun : follow schedule s = .ok () s₁) :
    s₁.graph.Valid ∧ s.Stable s₁.graph ∧ s₁.graph.Refines s.graph := by
  have hadvances := Attempt.of_wp_ok (follow_wp hg hs hcomplete.lt_size) hrun
  have hvalid := hadvances.narrows.valid hg
  exact ⟨hvalid, (hadvances.stable_iff _).mp
    ((hcomplete.atFixpoint s₁ hrun).stable hvalid hadvances.suits), hadvances.narrows.refines hg⟩

/-- Any two complete schedules both fail, or both succeed with equal bounds. -/
theorem follow_confluent (hg : s.graph.Reachable) (hs : s.Suits) {schedule schedule' : List Nat}
    (hcomplete : IsComplete schedule s) (hcomplete' : IsComplete schedule' s) :
    ((∃ failure s₁, follow schedule s = .error failure s₁ ∧ ∀ fault, failure ≠ .fault fault) ∧
      ∃ failure s₂, follow schedule' s = .error failure s₂ ∧ ∀ fault, failure ≠ .fault fault) ∨
    ∃ s₁ s₂, follow schedule s = .ok () s₁ ∧ follow schedule' s = .ok () s₂ ∧
      (s₁.graph.lower == s₂.graph.lower) = true ∧ (s₁.graph.upper == s₂.graph.upper) = true := by
  have hvalid := hg.valid
  have hwp := follow_wp hvalid hs hcomplete.lt_size
  have hwp' := follow_wp hvalid hs hcomplete'.lt_size
  cases hrun : follow schedule s with
  | error failure s₁ =>
      have hrejects := Attempt.of_wp_error hwp hrun
      cases hrun' : follow schedule' s with
      | error failure' s₂ =>
          exact .inl ⟨⟨failure, s₁, rfl, hrejects.not_fault⟩,
            failure', s₂, rfl, (Attempt.of_wp_error hwp' hrun').not_fault⟩
      | ok _ s₂ =>
          obtain ⟨hvalid₂, hstable, href⟩ := hcomplete'.stable_graph hvalid hs hrun'
          exact absurd href (hrejects.empty _ hvalid₂ hstable)
  | ok _ s₁ =>
      obtain ⟨hvalid₁, hstable₁, href₁⟩ := hcomplete.stable_graph hvalid hs hrun
      cases hrun' : follow schedule' s with
      | error failure' s₂ =>
          exact absurd href₁ ((Attempt.of_wp_error hwp' hrun').empty _ hvalid₁ hstable₁)
      | ok _ s₂ =>
          obtain ⟨hvalid₂, hstable₂, href₂⟩ := hcomplete'.stable_graph hvalid hs hrun'
          have hle := (Attempt.of_wp_ok hwp' hrun').widest _ hvalid₁ hstable₁ href₁
          have hge := (Attempt.of_wp_ok hwp hrun).widest _ hvalid₂ hstable₂ href₂
          exact .inr ⟨s₁, s₂, rfl, rfl,
            (GraphVar.agree_iff_beq hvalid₁ hvalid₂).mp (hle.antisymm hge)⟩

/-- Closing a path, bounding the degrees by two and joining the nodes take the fourth node away, in
whatever order they are applied. -/
theorem follow_confluent_path :
    let g := (GraphVar.Mutation.enforceEdge 1 2).run.after
      ((GraphVar.Mutation.enforceEdge 0 1).run.after (GraphVar.unconstrained 4 false))
    let s : Session GraphVar :=
      { domains := g
        propagators := #[.transitivity {}, .connectivity (Connectivity.make g),
          .degree { orientation := .neighbours, bounds := #[2, 2, 2, 2] }] }
    s.graph.Reachable ∧ s.Suits ∧ IsComplete [0, 2, 1] s ∧ IsComplete [2, 1, 0, 2, 1] s ∧
      ∃ s₁ s₂, follow [0, 2, 1] s = .ok () s₁ ∧ follow [2, 1, 0, 2, 1] s = .ok () s₂ ∧
        s₁.graph.isPotentialNode 3 = false ∧
        (s₁.graph.lower == s₂.graph.lower) = true ∧ (s₁.graph.upper == s₂.graph.upper) = true := by
  intro g s
  have hg : g.Reachable := .mutate _ (.mutate _ (.unconstrained 4 false))
  have hs : s.Suits := by
    intro index p hp
    have hindex : index < 3 := (Array.getElem?_eq_some_iff.mp hp).1
    obtain rfl | rfl | rfl : index = 0 ∨ index = 1 ∨ index = 2 := by omega
    · cases hp
      trivial
    · cases hp
      exact Connectivity.suits_make g
    · cases hp
      exact ⟨by decide, by decide +kernel⟩
  have hcomplete : IsComplete [0, 2, 1] s := by decide +kernel
  have hcomplete' : IsComplete [2, 1, 0, 2, 1] s := by decide +kernel
  have heval : (follow [0, 2, 1]).passes (fun _ s₁ => !s₁.graph.isPotentialNode 3) s = true := by
    decide +kernel
  obtain ⟨_, s₀, hrun₀, hremoved⟩ := Attempt.passes_iff.mp heval
  obtain ⟨⟨failure, s₁, hrun, -⟩, -⟩ | ⟨s₁, s₂, hrun, hrun', hlower, hupper⟩ :=
    follow_confluent (s := s) hg hs hcomplete hcomplete'
  · exact absurd (hrun₀.symm.trans hrun) (by simp)
  · cases hrun₀.symm.trans hrun
    exact ⟨hg, hs, hcomplete, hcomplete', s₀, s₂, hrun, hrun', by simpa using hremoved, hlower,
      hupper⟩

end Session

end GraphInterval
