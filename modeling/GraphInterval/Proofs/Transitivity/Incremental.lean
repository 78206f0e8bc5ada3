import GraphInterval.Proofs.Transitivity.Exact

/-!
# Incremental propagation of transitive graphs

A propagator that is not asked to look at the whole graph only looks at the
events after its cursor.  At the cursor every triple was settled, and every
edge that was decided since has its event behind the cursor, in one of its two
orders; so a triple that is not settled any more has a waiting edge, and the
invariant of filtering holds.  Backtracking may lead behind the cursor, to a
variable about which nothing is known, and therefore asks for a full pass.
-/

namespace GraphInterval

namespace GraphVar

variable {g g' : GraphVar}

/-! ### Checkpoints do not matter to changes -/

/-- The variable with other checkpoints. -/
def relabel (g : GraphVar) (delimiters : Array Nat) : GraphVar :=
  { g with log := { g.log with delimiters } }

theorem Valid.relabel (hg : g.Valid) (delimiters : Array Nat) : (g.relabel delimiters).Valid :=
  ⟨hg.lower, hg.upper, hg.order_eq, hg.directed_eq, hg.le⟩

theorem Change.relabel (h : Change g g') (delimiters : Array Nat) :
    Change (g.relabel delimiters) (g'.relabel delimiters) := by
  cases h with
  | includeNode hpotential hnot =>
      exact Change.includeNode (g := g.relabel delimiters) hpotential hnot
  | includeEdge hpotential hnot ha hb =>
      exact Change.includeEdge (g := g.relabel delimiters) hpotential hnot ha hb
  | excludeEdge hpotential hnot =>
      exact Change.excludeEdge (g := g.relabel delimiters) hpotential hnot
  | excludeNode hpotential hnot hisolated =>
      exact Change.excludeNode (g := g.relabel delimiters) hpotential hnot hisolated

theorem Narrows.relabel (h : Narrows g g') (delimiters : Array Nat) :
    Narrows (g.relabel delimiters) (g'.relabel delimiters) := by
  induction h with
  | refl => exact .refl
  | tail _ hchange ih => exact Relation.ReflTransGen.tail ih (hchange.relabel delimiters)

theorem Closed.relabel (hg : g.Closed) (delimiters : Array Nat) :
    (g.relabel delimiters).Closed := by
  intro a b c hab hbc hac
  have hsettled := hg a b c hab hbc hac
  exact ⟨hsettled.enforce, hsettled.second, hsettled.first⟩

end GraphVar

namespace Transitivity

variable {s s' : State}

/-! ### Runs of a host -/

/-- The states that a host produces from a fresh propagator.  The flag tells
whether the last propagation failed, after which the host backtracks before it
propagates again. -/
inductive Hosted : State → Bool → Prop where
  | start {g : GraphVar} : g.Reachable → Hosted ⟨{}, g⟩ false
  | mutate {s : State} {failed : Bool} (m : GraphVar.Mutation) : Hosted s failed →
      Hosted { s with domains := m.run.after s.domains } failed
  | mark {s : State} {failed : Bool} : Hosted s failed →
      Hosted { s with domains := s.domains.mark } failed
  | succeed {s s' : State} {x : Run Unit} : x = propagate ∨ x = propagateFromScratch →
      Hosted s false → x s = .ok () s' → Hosted s' false
  | fail {s s' : State} {x : Run Unit} {failure : Failure} :
      x = propagate ∨ x = propagateFromScratch →
      Hosted s false → x s = .error failure s' → Hosted s' true
  | backtrack {s : State} {failed : Bool} {target : Nat} {g : GraphVar} : Hosted s failed →
      GraphVar.synchronise target s.domains = .ok () g →
      Hosted ⟨synchronise g s.propagator, g⟩ false

/-- The monitor stands where every triple was settled, and nothing was taken back since. -/
structure Current (s : State) : Prop where
  frozenAt_eq : s.propagator.monitor.frozenAt = none
  settled : ∃ g : GraphVar, g.Valid ∧ g.Closed ∧ g.Narrows s.domains ∧
    s.propagator.monitor.cursor = g.numEvents

theorem Completed.current {g₀ : GraphVar} (hg₀ : g₀.Valid) (h : Completed g₀ s) : Current s := by
  have hmonitor := h.monitor_eq
  exact ⟨by rw [hmonitor], s.domains, h.filtered.narrows.valid hg₀, h.filtered.closed, .refl,
    by rw [hmonitor]⟩

/-! ### A window on the log -/

theorem foldl_enqueueEvent (events : List Event) (t : Transitivity) :
    (events.foldl enqueueEvent t).fullPassPending = t.fullPassPending ∧
      (∀ a b, (a, b) ∈ (events.foldl enqueueEvent t).enforced ↔
        (a, b) ∈ t.enforced ∨ Event.edgeEnforced a b ∈ events) ∧
      (∀ a b, (a, b) ∈ (events.foldl enqueueEvent t).removed ↔
        (a, b) ∈ t.removed ∨ Event.edgeRemoved a b ∈ events) := by
  induction events generalizing t with
  | nil => simp
  | cons event events ih =>
      obtain ⟨hpass, henforced, hremoved⟩ := ih (enqueueEvent t event)
      simp only [List.foldl_cons, hpass, henforced, hremoved, List.mem_cons]
      cases event with
      | edgeEnforced a b => simp [enqueueEvent]; grind
      | edgeRemoved a b => simp [enqueueEvent]; grind
      | nodeEnforced v => simp [enqueueEvent]
      | nodeRemoved v => simp [enqueueEvent]

/-- The events behind the cursor are put on the stacks. -/
theorem openWindow_eq {g : GraphVar} {t : Transitivity} {seen news : List Event}
    (hfrozen : t.monitor.frozenAt = none) (hevents : g.events = seen ++ news)
    (hcursor : t.monitor.cursor = seen.length) :
    ∃ t', openWindow g t = .ok t' ∧ t'.fullPassPending = t.fullPassPending ∧
      (∀ a b, (a, b) ∈ t'.enforced ↔ Event.edgeEnforced a b ∈ news) ∧
      (∀ a b, (a, b) ∈ t'.removed ↔ Event.edgeRemoved a b ∈ news) := by
  have hlength : g.numEvents = g.events.length := by simp [GraphVar.numEvents, GraphVar.events]
  have hreplay : Monitor.replay { t.monitor with frozenAt := some g.numEvents } g.events
      EventKind.edgeEvents =
        .ok (news.filter fun event => EventKind.edgeEvents.contains event.kind) := by
    dsimp only [Monitor.replay]
    rw [if_pos (Nat.le_of_eq hlength), hlength, List.take_length, hcursor, hevents,
      List.drop_left]
  have hopen : openWindow g t = .ok
      ((news.filter fun event => EventKind.edgeEvents.contains event.kind).foldl enqueueEvent
        { t with
          monitor := { t.monitor with frozenAt := some g.numEvents }
          enforced := []
          removed := [] }) := by
    simp only [openWindow, Monitor.freeze, hfrozen]
    change (do let events ← Monitor.replay _ _ _; _) = _
    rw [hreplay]
    rfl
  obtain ⟨hpass, henforced, hremoved⟩ := foldl_enqueueEvent
    (news.filter fun event => EventKind.edgeEvents.contains event.kind)
    { t with
      monitor := { t.monitor with frozenAt := some g.numEvents }
      enforced := []
      removed := [] }
  refine ⟨_, hopen, hpass, fun a b => ?_, fun a b => ?_⟩
  · rw [henforced]
    simp [EventKind.edgeEvents, Event.kind]
  · rw [hremoved]
    simp [EventKind.edgeEvents, Event.kind]

/-- After the events since a settled variable were put on the stacks, every
triple that is not settled any more has a waiting edge. -/
theorem Filtering.ofEvents {g : GraphVar} {news : List Event} (hg : g.Valid) (hclosed : g.Closed)
    (hnarrows : g.Narrows s.domains) (hrecords : GraphVar.Records g s.domains news)
    (hpass : s.propagator.fullPassPending = false)
    (henforced : ∀ a b, (a, b) ∈ s.propagator.enforced ↔ Event.edgeEnforced a b ∈ news)
    (hremoved : ∀ a b, (a, b) ∈ s.propagator.removed ↔ Event.edgeRemoved a b ∈ news) :
    Filtering s.domains (fun _ _ _ => False) s := by
  have hdirected := hnarrows.directed hg
  -- an edge whose status changed waits
  have hsame : ∀ x y, Waits s x y ∨ (s.domains.isMandatory x y = g.isMandatory x y ∧
      s.domains.isPotential x y = g.isPotential x y) := by
    intro x y
    by_cases hM : s.domains.isMandatory x y = true ∧ g.isMandatory x y = false
    · obtain ⟨a, b, hmem, hxy⟩ := hrecords.enforced x y hM.1 hM.2
      exact .inl ⟨(a, b), .inl ((henforced a b).mpr hmem), hdirected.symm ▸ hxy⟩
    by_cases hP : g.isPotential x y = true ∧ s.domains.isPotential x y = false
    · obtain ⟨a, b, hmem, hxy⟩ := hrecords.removed x y hP.1 hP.2
      exact .inl ⟨(a, b), .inr ((hremoved a b).mpr hmem), hdirected.symm ▸ hxy⟩
    have hM' : g.isMandatory x y = true → s.domains.isMandatory x y = true :=
      hnarrows.isMandatory hg
    have hP' : s.domains.isPotential x y = true → g.isPotential x y = true :=
      hnarrows.isPotential hg
    right
    constructor <;> grind
  refine ⟨hpass, .refl, fun H hH => hH.1, fun e he => ?_, fun e he => ?_,
    fun a b c hab hbc hac => ?_⟩
  · exact hrecords.isMandatory e.1 e.2 ((henforced e.1 e.2).mp he)
  · exact hrecords.isPotential e.1 e.2 ((hremoved e.1 e.2).mp he)
  · obtain hwaits | habs := hsame a b
    · exact .inr (.inl hwaits)
    obtain hwaits | hbcs := hsame b c
    · exact .inr (.inr (.inl hwaits))
    obtain hwaits | hacs := hsame a c
    · exact .inr (.inr (.inr (.inl hwaits)))
    · refine .inl (settled_congr (fun x y hxy => ?_) (hclosed a b c hab hbc hac))
      obtain ⟨rfl, rfl⟩ | ⟨rfl, rfl⟩ | ⟨rfl, rfl⟩ := hxy <;> assumption

theorem propagate_wp (hvalid : s.domains.Valid)
    (h : s.propagator.fullPassPending = false → Current s) :
    propagate.wp (fun _ s' => Completed s.domains s') (Failed s.domains) s := by
  rw [propagate, Attempt.wp_bind, Attempt.wp_get, Attempt.wp_ite]
  constructor
  · intro _
    exact propagateFromScratch_wp hvalid s.propagator
  · intro hpass
    have hpass' : s.propagator.fullPassPending = false := by simpa using hpass
    obtain ⟨hfrozen, g, hg, hclosed, hnarrows, hcursor⟩ := h hpass'
    obtain ⟨news, hrecords⟩ := hnarrows.records hg
    rw [Attempt.wp_bind, Posted.update, Attempt.wp_modify, Attempt.wp_bind, Attempt.wp_get]
    have hcursor' : s.propagator.monitor.cursor = g.events.length := by
      rw [hcursor]
      simp [GraphVar.numEvents, GraphVar.events]
    obtain ⟨t, hopen, hpass, henforced, hremoved⟩ := openWindow_eq
      (g := s.domains)
      (t := { s.propagator with
        numIncrementalPropagations := s.propagator.numIncrementalPropagations + 1 })
      hfrozen hrecords.events_eq hcursor'
    simp only [hopen]
    rw [Attempt.wp_bind, Posted.update, Attempt.wp_modify]
    apply filterWindow_wp hvalid
    exact Filtering.ofEvents (s := ⟨t, s.domains⟩) hg hclosed hnarrows hrecords (hpass.trans hpass')
      henforced hremoved

/-! ### Agreement with the full pass -/

/-- What holds in every state of a run. -/
structure Ready (s : State) (failed : Bool) : Prop where
  retractable : GraphVar.Retractable s.domains.events.reverse s.domains
  current : failed = false → s.propagator.fullPassPending = false → Current s

theorem Ready.propagation_wp (h : Ready s false) {x : Run Unit}
    (hx : x = propagate ∨ x = propagateFromScratch) :
    x.wp (fun _ s' => Completed s.domains s') (Failed s.domains) s := by
  have hvalid := h.retractable.valid
  obtain rfl | rfl := hx
  · exact propagate_wp hvalid (h.current rfl)
  · exact propagateFromScratch_wp hvalid s.propagator

theorem Current.narrows (h : Current s) {g : GraphVar} (hg : s.domains.Narrows g) :
    Current { s with domains := g } := by
  obtain ⟨hfrozen, g₀, hg₀, hclosed, hnarrows, hcursor⟩ := h
  exact ⟨hfrozen, g₀, hg₀, hclosed, hnarrows.trans hg, hcursor⟩

theorem Current.mark (h : Current s) : Current { s with domains := s.domains.mark } := by
  obtain ⟨hfrozen, g, hg, hclosed, hnarrows, hcursor⟩ := h
  exact ⟨hfrozen, g.relabel s.domains.mark.log.delimiters, hg.relabel _, hclosed.relabel _,
    hnarrows.relabel s.domains.mark.log.delimiters, hcursor⟩

theorem Hosted.ready {failed : Bool} (h : Hosted s failed) : Ready s failed := by
  induction h with
  | start hg => exact ⟨hg.retractable, fun _ hpass => absurd hpass (by simp)⟩
  | mutate m _ ih =>
      have hvalid := ih.retractable.valid
      exact ⟨(m.narrows hvalid).retractable ih.retractable,
        fun hfailed hpass => (ih.current hfailed hpass).narrows (m.narrows hvalid)⟩
  | mark _ ih =>
      exact ⟨ih.retractable.mark, fun hfailed hpass => (ih.current hfailed hpass).mark⟩
  | succeed hx _ hrun ih =>
      have hcompleted := Attempt.of_wp_ok (ih.propagation_wp hx) hrun
      exact ⟨hcompleted.filtered.narrows.retractable ih.retractable,
        fun _ _ => hcompleted.current ih.retractable.valid⟩
  | fail hx _ hrun ih =>
      have hfailed := Attempt.of_wp_error (ih.propagation_wp hx) hrun
      exact ⟨hfailed.narrows.retractable ih.retractable, fun hfalse => absurd hfalse (by simp)⟩
  | backtrack _ hsync ih =>
      exact ⟨ih.retractable.of_synchronise hsync, fun _ hpass => absurd hpass (by
        simp [Transitivity.synchronise])⟩

/-- Completed propagations of one variable leave equal bounds. -/
theorem Completed.agree {g₀ : GraphVar} (hg₀ : g₀.Valid) (h : Completed g₀ s)
    (h' : Completed g₀ s') : GraphVar.Agree s.domains s'.domains := by
  have hbounds := h.filtered.bounds_eq hg₀
  have hbounds' := h'.filtered.bounds_eq hg₀
  have hnarrows := h.filtered.narrows
  have hnarrows' := h'.filtered.narrows
  exact ⟨(hnarrows.order hg₀).trans (hnarrows'.order hg₀).symm,
    (hnarrows.directed hg₀).trans (hnarrows'.directed hg₀).symm,
    hbounds.1.trans hbounds'.1.symm, hbounds.2.trans hbounds'.2.symm⟩

/-- In every run, a propagation succeeds if and only if a fresh propagator that
looks at the whole graph does, and then it leaves the same bounds. -/
theorem propagate_agrees_with_fromScratch (h : Hosted s false) :
    ((∃ s', propagate s = .ok () s') ↔
        ∃ s'', propagateFromScratch ⟨{}, s.domains⟩ = .ok () s'') ∧
      (∀ s' s'', propagate s = .ok () s' →
        propagateFromScratch ⟨{}, s.domains⟩ = .ok () s'' →
          (s'.domains.lower == s''.domains.lower) = true ∧
            (s'.domains.upper == s''.domains.upper) = true) ∧
      (∀ failure s', propagate s = .error failure s' → failure = .wipeout) := by
  have hready := h.ready
  have hvalid := hready.retractable.valid
  have hincremental := hready.propagation_wp (.inl rfl)
  have hfull := propagateFromScratch_wp hvalid {}
  refine ⟨⟨?_, ?_⟩, ?_, ?_⟩
  · rintro ⟨s', hs'⟩
    obtain ⟨H, hH⟩ := (Attempt.of_wp_ok hincremental hs').filtered.nonempty hvalid
    cases hrun : propagateFromScratch ⟨{}, s.domains⟩ with
    | ok _ s'' => exact ⟨s'', rfl⟩
    | error failure s'' => exact absurd hH ((Attempt.of_wp_error hfull hrun).empty H)
  · rintro ⟨s'', hs''⟩
    obtain ⟨H, hH⟩ := (Attempt.of_wp_ok hfull hs'').filtered.nonempty hvalid
    cases hrun : propagate s with
    | ok _ s' => exact ⟨s', rfl⟩
    | error failure s' => exact absurd hH ((Attempt.of_wp_error hincremental hrun).empty H)
  · intro s' s'' hs' hs''
    have hcompleted := Attempt.of_wp_ok hincremental hs'
    have hcompleted' := Attempt.of_wp_ok hfull hs''
    apply (GraphVar.agree_iff_beq _ _).mp
    · exact hcompleted.agree hvalid hcompleted'
    · exact hcompleted.filtered.narrows.valid hvalid
    · exact hcompleted'.filtered.narrows.valid hvalid
  · intro failure s' hs'
    exact (Attempt.of_wp_error hincremental hs').failure_eq

/-- A propagation that follows an enforced path enforces the edge between its
ends, and so does the full pass. -/
theorem propagate_agrees_with_fromScratch_path :
    let s₀ := propagate.after ⟨{}, GraphVar.unconstrained 3 true⟩
    let s : State := ⟨s₀.propagator, (GraphVar.Mutation.enforceEdge 1 2).run.after
      ((GraphVar.Mutation.enforceEdge 0 1).run.after s₀.domains)⟩
    Hosted s false ∧ s.propagator.fullPassPending = false ∧
      ∃ s' s'', propagate s = .ok () s' ∧ s'.domains.isMandatory 0 2 = true ∧
        propagateFromScratch ⟨{}, s.domains⟩ = .ok () s'' ∧
        (s'.domains.lower == s''.domains.lower) = true ∧
        (s'.domains.upper == s''.domains.upper) = true := by
  intro s₀ s
  have hfirst : propagate ⟨{}, GraphVar.unconstrained 3 true⟩ = .ok () s₀ := rfl
  have hs₀ : Hosted s₀ false := .succeed (.inl rfl) (.start (.unconstrained 3 true)) hfirst
  have hpass : s.propagator.fullPassPending = false := rfl
  have heval : (match propagate s with
      | .ok _ s' => s'.domains.isMandatory 0 2
      | .error _ _ => false) = true := by decide +kernel
  clear_value s₀
  have hs : Hosted s false := .mutate (.enforceEdge 1 2) (.mutate (.enforceEdge 0 1) hs₀)
  obtain ⟨hiff, hbounds, -⟩ := propagate_agrees_with_fromScratch hs
  cases hsecond : propagate s with
  | ok value s' =>
      rw [hsecond] at heval
      obtain ⟨s'', hs''⟩ := hiff.mp ⟨s', hsecond⟩
      exact ⟨hs, hpass, s', s'', rfl, heval, hs'', hbounds s' s'' hsecond hs''⟩
  | error failure s' =>
      rw [hsecond] at heval
      exact absurd heval (by simp)

end Transitivity

end GraphInterval
