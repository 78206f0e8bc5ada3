import GraphInterval.Proofs.Transitivity.Filter

/-!
# Propagating transitive graphs

A propagation filters until no edge waits.  It stops early only if the domain
has no transitive graph; otherwise every triple is settled at the end, and the
bounds are the intersection and the union of the transitive graphs of the
original domain.
-/

namespace GraphInterval

namespace Transitivity

variable {g₀ : GraphVar} {X : Nat → Nat → Nat → Prop} {s s' : State}

/-- The variable was narrowed by forced decisions until every triple was settled. -/
structure Filtered (g₀ g : GraphVar) : Prop where
  narrows : g₀.Narrows g
  keeps : ∀ H ∈ g₀.transitiveGraphs, g.Admits H
  closed : g.Closed

/-- A filtered variable has the transitive graphs of the original one. -/
theorem Filtered.transitiveGraphs_eq (hg₀ : g₀.Valid) {g : GraphVar} (h : Filtered g₀ g) :
    g.transitiveGraphs = g₀.transitiveGraphs := by
  ext H
  constructor
  · intro hH
    exact ⟨h.narrows.admits hg₀ hH.1, hH.2⟩
  · intro hH
    exact ⟨h.keeps H hH, hH.2⟩

theorem Filtered.bounds_eq (hg₀ : g₀.Valid) {g : GraphVar} (h : Filtered g₀ g) :
    g.lower.shape = Shape.inter g₀.transitiveGraphs ∧
      g.upper.shape = Shape.union g₀.transitiveGraphs := by
  rw [← h.transitiveGraphs_eq hg₀]
  exact h.closed.bounds_eq (h.narrows.valid hg₀)

theorem Filtered.nonempty (hg₀ : g₀.Valid) {g : GraphVar} (h : Filtered g₀ g) :
    ∃ H, H ∈ g₀.transitiveGraphs := by
  rw [← h.transitiveGraphs_eq hg₀]
  exact ⟨_, h.closed.lower_mem (h.narrows.valid hg₀)⟩

/-! ### Emptying the stacks -/

/-- Taking an edge off its stack excepts the triples that it belongs to. -/
theorem Filtering.pop (h : Filtering g₀ (fun _ _ _ => False) s) {p q : Nat}
    (hpass : s'.propagator.fullPassPending = s.propagator.fullPassPending)
    (hdomains : s'.domains = s.domains)
    (henforced : ∀ e ∈ s'.propagator.enforced, e ∈ s.propagator.enforced)
    (hremoved : ∀ e ∈ s'.propagator.removed, e ∈ s.propagator.removed)
    (hstacks : ∀ e, e ∈ s.propagator.enforced ∨ e ∈ s.propagator.removed →
      e = (p, q) ∨ e ∈ s'.propagator.enforced ∨ e ∈ s'.propagator.removed)
    (hX : ∀ a b c, Shape.SameEdge s.domains.directed p q a b ∨
      Shape.SameEdge s.domains.directed p q b c ∨ Shape.SameEdge s.domains.directed p q a c →
      s.domains.Settled a b c ∨ X a b c ∨ (s.domains.directed = false ∧ X c b a)) :
    Filtering g₀ X s' := by
  have hwaits : ∀ a b, Waits s a b → Shape.SameEdge s.domains.directed p q a b ∨
      Waits s' a b := by
    rintro a b ⟨e, he, hsame⟩
    obtain rfl | he := hstacks e he
    · exact .inl hsame
    · exact .inr ⟨e, he, hdomains ▸ hsame⟩
  refine ⟨hpass.trans h.noPass, hdomains ▸ h.narrows, hdomains ▸ h.keeps, fun e he => ?_,
    fun e he => ?_, fun a b c hab hbc hac => ?_⟩
  · rw [hdomains]
    exact h.enforced e (henforced e he)
  · rw [hdomains]
    exact h.removed e (hremoved e he)
  have hexcept : Shape.SameEdge s.domains.directed p q a b ∨
      Shape.SameEdge s.domains.directed p q b c ∨ Shape.SameEdge s.domains.directed p q a c →
      s'.domains.Settled a b c ∨ Waits s' a b ∨ Waits s' b c ∨ Waits s' a c ∨ X a b c ∨
        (s'.domains.directed = false ∧ X c b a) := by
    intro hsame
    rw [hdomains]
    obtain hs | hs := hX a b c hsame
    · exact .inl hs
    · exact .inr (.inr (.inr (.inr hs)))
  obtain hs | hs | hs | hs | hs | ⟨-, hs⟩ := h.settled a b c hab hbc hac
  · exact .inl (hdomains ▸ hs)
  · obtain hsame | hs := hwaits a b hs
    · exact hexcept (.inl hsame)
    · exact .inr (.inl hs)
  · obtain hsame | hs := hwaits b c hs
    · exact hexcept (.inr (.inl hsame))
    · exact .inr (.inr (.inl hs))
  · obtain hsame | hs := hwaits a c hs
    · exact hexcept (.inr (.inr hsame))
    · exact .inr (.inr (.inr (.inl hs)))
  · exact hs.elim
  · exact hs.elim

/-- The triples of a mandatory edge that are not settled have it as a premise. -/
theorem settled_or_asPremise (hg : s.domains.Valid) {p q a b c : Nat}
    (hM : s.domains.isMandatory p q = true)
    (hsame : Shape.SameEdge s.domains.directed p q a b ∨
      Shape.SameEdge s.domains.directed p q b c ∨ Shape.SameEdge s.domains.directed p q a c) :
    s.domains.Settled a b c ∨ AsPremise p q a b c ∨
      (s.domains.directed = false ∧ AsPremise p q c b a) := by
  obtain hsame | hsame | hsame := hsame
  · obtain ⟨rfl, rfl⟩ | ⟨hd, rfl, rfl⟩ := hsame
    · exact .inr (.inl (.inl ⟨rfl, rfl⟩))
    · exact .inr (.inr ⟨hd, .inr ⟨rfl, rfl⟩⟩)
  · obtain ⟨rfl, rfl⟩ | ⟨hd, rfl, rfl⟩ := hsame
    · exact .inr (.inl (.inr ⟨rfl, rfl⟩))
    · exact .inr (.inr ⟨hd, .inl ⟨rfl, rfl⟩⟩)
  · exact .inl (.of_isMandatory hg ((hg.isMandatory_sameEdge hsame).trans hM))

/-- The triples of an impossible edge that are not settled have it as the conclusion. -/
theorem settled_or_conclusion (hg : s.domains.Valid) {p q a b c : Nat}
    (hP : s.domains.isPotential p q = false)
    (hsame : Shape.SameEdge s.domains.directed p q a b ∨
      Shape.SameEdge s.domains.directed p q b c ∨ Shape.SameEdge s.domains.directed p q a c) :
    s.domains.Settled a b c ∨ (a = p ∧ c = q) ∨
      (s.domains.directed = false ∧ c = p ∧ a = q) := by
  have hnot : ∀ {x y}, Shape.SameEdge s.domains.directed p q x y →
      ¬ s.domains.isPotential x y = true := by
    intro x y hxy htrue
    exact absurd ((hg.isPotential_sameEdge hxy).trans hP) (by simp [htrue])
  obtain hsame | hsame | hsame := hsame
  · exact .inl (.of_not_first hg (hnot hsame))
  · exact .inl (.of_not_second hg (hnot hsame))
  · obtain ⟨rfl, rfl⟩ | ⟨hd, rfl, rfl⟩ := hsame
    · exact .inr (.inl ⟨rfl, rfl⟩)
    · exact .inr (.inr ⟨hd, rfl, rfl⟩)

/-- With empty stacks, every triple is settled. -/
theorem Filtering.filtered (h : Filtering g₀ (fun _ _ _ => False) s)
    (henforced : s.propagator.enforced = []) (hremoved : s.propagator.removed = []) :
    Filtered g₀ s.domains := by
  have hwaits : ∀ a b, ¬ Waits s a b := by
    rintro a b ⟨e, he, -⟩
    simp [henforced, hremoved] at he
  refine ⟨h.narrows, h.keeps, fun a b c hab hbc hac => ?_⟩
  obtain hs | hs | hs | hs | hs | ⟨-, hs⟩ := h.settled a b c hab hbc hac
  · exact hs
  · exact absurd hs (hwaits a b)
  · exact absurd hs (hwaits b c)
  · exact absurd hs (hwaits a c)
  · exact hs.elim
  · exact hs.elim

/-- An edge that leaves the stack of the enforced ones leaves the triples of which it is a
premise. -/
theorem Filtering.pop_enforced (hg₀ : g₀.Valid) (h : Filtering g₀ (fun _ _ _ => False) s)
    {a b : Nat} {rest : List Edge} (henforced : s.propagator.enforced = (a, b) :: rest)
    (hM : s.domains.isMandatory a b = true) :
    Filtering g₀ (AsPremise a b)
      { s with propagator := { s.propagator with enforced := rest } } := by
  refine h.pop (p := a) (q := b) rfl rfl ?_ ?_ ?_ ?_
  · intro e he
    rw [henforced]
    exact List.mem_cons_of_mem _ he
  · exact fun e he => he
  · rw [henforced]
    simp only [List.mem_cons]
    intro e he
    rwa [or_assoc] at he
  · intro x y z hsame
    exact settled_or_asPremise (h.valid hg₀) hM hsame

/-- An edge that leaves the stack of the removed ones leaves the triples whose conclusion it is. -/
theorem Filtering.pop_removed (hg₀ : g₀.Valid) (h : Filtering g₀ (fun _ _ _ => False) s)
    {a b : Nat} {rest : List Edge} (hremoved : s.propagator.removed = (a, b) :: rest)
    (hP : s.domains.isPotential a b = false) :
    Filtering g₀ (fun x _ z => x = a ∧ z = b)
      { s with propagator := { s.propagator with removed := rest } } := by
  refine h.pop (p := a) (q := b) rfl rfl ?_ ?_ ?_ ?_
  · exact fun e he => he
  · intro e he
    rw [hremoved]
    exact List.mem_cons_of_mem _ he
  · rw [hremoved]
    simp only [List.mem_cons]
    intro e he
    rwa [or_left_comm] at he
  · intro x y z hsame
    exact settled_or_conclusion (h.valid hg₀) hP hsame

/-- One step draws the consequences of a waiting edge, or nothing is left to do. -/
theorem processNext_wp (hg₀ : g₀.Valid) (h : Filtering g₀ (fun _ _ _ => False) s) :
    processNext.wp
      (fun again s' => if again = true then
        Filtering g₀ (fun _ _ _ => False) s' ∧ budget s' < budget s
        else s'.propagator.fullPassPending = false ∧ Filtered g₀ s'.domains)
      (Failed g₀) s := by
  rw [processNext, Attempt.wp_bind, Attempt.wp_get]
  dsimp only
  split
  next a b rest henforced =>
    have hM : s.domains.isMandatory a b = true :=
      h.enforced (a, b) (henforced ▸ List.mem_cons_self)
    rw [Attempt.wp_bind, Posted.update, Attempt.wp_modify, Attempt.wp_bind]
    refine Attempt.wp_mono (edgeEnforced_wp hg₀ (h.pop_enforced hg₀ henforced hM) hM) ?_
      fun _ _ hf => hf
    rintro _ t ⟨ht, hbudget⟩
    refine ⟨ht, ?_⟩
    rw [hbudget]
    simp [budget, henforced]
  next a b rest henforced hremoved =>
    have hP : s.domains.isPotential a b = false :=
      h.removed (a, b) (hremoved ▸ List.mem_cons_self)
    rw [Attempt.wp_bind, Posted.update, Attempt.wp_modify, Attempt.wp_bind]
    refine Attempt.wp_mono (edgeRemoved_wp hg₀ (h.pop_removed hg₀ hremoved hP) hP) ?_
      fun _ _ hf => hf
    rintro _ t ⟨ht, hbudget⟩
    refine ⟨ht, ?_⟩
    rw [hbudget]
    simp [budget, hremoved]
  next henforced hremoved =>
    exact ⟨h.noPass, h.filtered henforced hremoved⟩

theorem filter_wp (hg₀ : g₀.Valid) (h : Filtering g₀ (fun _ _ _ => False) s) :
    filter.wp
      (fun _ s' => s'.propagator.fullPassPending = false ∧ Filtered g₀ s'.domains)
      (Failed g₀) s := by
  rw [filter, Attempt.wp_bind, Attempt.wp_get]
  apply Attempt.wp_repeatWhile (I := Filtering g₀ fun _ _ _ => False) (m := budget)
  · exact fun t ht => processNext_wp hg₀ ht
  · intro t ht hzero
    simp only [budget, Nat.add_eq_zero_iff, List.length_eq_zero_iff] at hzero
    exact ⟨ht.noPass, ht.filtered hzero.1.1 hzero.1.2⟩
  · exact h
  · exact Nat.le_refl _

/-- After a propagation, the monitor has seen everything, and every triple is settled. -/
structure Completed (g₀ : GraphVar) (s : State) : Prop where
  noPass : s.propagator.fullPassPending = false
  monitor_eq : s.propagator.monitor = { cursor := s.domains.numEvents, frozenAt := none }
  filtered : Filtered g₀ s.domains

theorem filterWindow_wp (hg₀ : g₀.Valid) (h : Filtering g₀ (fun _ _ _ => False) s) :
    filterWindow.wp (fun _ s' => Completed g₀ s') (Failed g₀) s := by
  rw [filterWindow, Attempt.wp_ensuring]
  refine Attempt.wp_mono (filter_wp hg₀ h) ?_ ?_
  · rintro _ t ⟨hpass, hfiltered⟩
    exact ⟨hpass, rfl, hfiltered⟩
  · rintro failure t ⟨hfailure, hnarrows, hempty⟩
    exact ⟨hfailure, hnarrows, hempty⟩

/-! ### Propagating from scratch -/

/-- The stacks that are filled from a list of candidates, and nothing else changes. -/
theorem foldl_enqueueEdge (g : GraphVar) (edges : List Edge) (t : Transitivity) :
    ((edges.foldl (enqueueEdge g) t).fullPassPending = t.fullPassPending) ∧
      (∀ e, e ∈ (edges.foldl (enqueueEdge g) t).enforced ↔
        e ∈ t.enforced ∨ (e ∈ edges ∧ g.isMandatory e.1 e.2 = true)) ∧
      (∀ e, e ∈ (edges.foldl (enqueueEdge g) t).removed ↔
        e ∈ t.removed ∨
          (e ∈ edges ∧ g.isMandatory e.1 e.2 = false ∧ g.isPotential e.1 e.2 = false)) := by
  induction edges generalizing t with
  | nil => simp
  | cons edge edges ih =>
      obtain ⟨hpass, henforced, hremoved⟩ := ih (enqueueEdge g t edge)
      simp only [List.foldl_cons, henforced, hremoved, hpass, List.mem_cons]
      cases hM : g.isMandatory edge.1 edge.2 with
      | true => simp only [enqueueEdge, hM, if_true, List.mem_cons]; grind
      | false =>
          cases hP : g.isPotential edge.1 edge.2 with
          | true => simp [enqueueEdge, hM, hP]; grind
          | false => simp [enqueueEdge, hM, hP]; grind

theorem mem_candidates {g : GraphVar} (hg : g.Valid) {a b : Nat}
    (hM : g.isMandatory a b = true) : (a, b) ∈ candidates g := by
  have hP := hg.isPotential hM
  simp only [candidates, List.mem_flatMap, List.mem_map, List.mem_range]
  exact ⟨a, (Graph.mem_nodes hg.upper).mpr (hg.upper.source hP), b, (hg.lt_order hP).2, rfl⟩

theorem propagateFromScratch_wp {g : GraphVar} (hg : g.Valid) (t : Transitivity) :
    propagateFromScratch.wp (fun _ s' => Completed g s') (Failed g) ⟨t, g⟩ := by
  simp only [propagateFromScratch, Posted.update, Attempt.wp_bind, Attempt.wp_modify,
    Attempt.wp_get]
  apply filterWindow_wp hg
  obtain ⟨hpass, henforced, hremoved⟩ := foldl_enqueueEdge g (candidates g)
    { t with
      numFullPropagations := t.numFullPropagations + 1
      fullPassPending := false
      enforced := []
      removed := [] }
  have hwaits : ∀ a b, g.isMandatory a b = true →
      ∃ e ∈ ((candidates g).foldl (enqueueEdge g)
        { t with
          numFullPropagations := t.numFullPropagations + 1
          fullPassPending := false
          enforced := []
          removed := [] }).enforced, Shape.SameEdge g.directed e.1 e.2 a b := by
    intro a b hM
    exact ⟨(a, b), (henforced (a, b)).mpr (.inr ⟨mem_candidates hg hM, hM⟩),
      GraphVar.sameEdge_self _ a b⟩
  refine ⟨hpass, .refl, fun H hH => hH.1, fun e he => ?_, fun e he => ?_,
    fun a b c _ _ _ => ?_⟩
  · exact (((henforced e).mp he).resolve_left List.not_mem_nil).2
  · exact (((hremoved e).mp he).resolve_left List.not_mem_nil).2.2
  · by_cases hab : g.isMandatory a b = true
    · obtain ⟨e, he, hsame⟩ := hwaits a b hab
      exact .inr (.inl ⟨e, .inl he, hsame⟩)
    by_cases hbc : g.isMandatory b c = true
    · obtain ⟨e, he, hsame⟩ := hwaits b c hbc
      exact .inr (.inr (.inl ⟨e, .inl he, hsame⟩))
    · exact .inl (.of_not_isMandatory hab hbc)

/-- Propagating from scratch succeeds if and only if the domain has a transitive
graph, and then the bounds become the intersection and the union of them all. -/
theorem propagateFromScratch_exact {g : GraphVar} (hg : g.Reachable) (t : Transitivity) :
    ((∃ s, propagateFromScratch ⟨t, g⟩ = .ok () s) ↔ ∃ H, H ∈ g.transitiveGraphs) ∧
      (∀ s, propagateFromScratch ⟨t, g⟩ = .ok () s →
        s.domains.lower.shape = Shape.inter g.transitiveGraphs ∧
          s.domains.upper.shape = Shape.union g.transitiveGraphs) ∧
      (∀ failure s, propagateFromScratch ⟨t, g⟩ = .error failure s → failure = .wipeout) := by
  have hvalid := hg.valid
  have hwp := propagateFromScratch_wp hvalid t
  refine ⟨⟨?_, ?_⟩, ?_, ?_⟩
  · rintro ⟨s, hs⟩
    exact (Attempt.of_wp_ok hwp hs).filtered.nonempty hvalid
  · rintro ⟨H, hH⟩
    cases hrun : propagateFromScratch ⟨t, g⟩ with
    | ok _ s => exact ⟨s, rfl⟩
    | error failure s => exact absurd hH ((Attempt.of_wp_error hwp hrun).empty H)
  · intro s hs
    exact (Attempt.of_wp_ok hwp hs).filtered.bounds_eq hvalid
  · intro failure s hs
    exact (Attempt.of_wp_error hwp hs).failure_eq

/-- The transitive graphs with the edges of a path contain the edge between its ends. -/
theorem propagateFromScratch_exact_path :
    let g := (GraphVar.Mutation.enforceEdge 1 2).run.after
      ((GraphVar.Mutation.enforceEdge 0 1).run.after (GraphVar.unconstrained 3 true))
    g.Reachable ∧ (∃ H, H ∈ g.transitiveGraphs) ∧
      ∀ H ∈ g.transitiveGraphs, H.edge 0 2 := by
  intro g
  have hg : g.Reachable := .mutate _ (.mutate _ (.unconstrained 3 true))
  obtain ⟨hok, hbounds, -⟩ := propagateFromScratch_exact hg {}
  have heval : (match propagateFromScratch ⟨{}, g⟩ with
      | .ok _ s => s.domains.isMandatory 0 2
      | .error _ _ => false) = true := by decide
  cases hrun : propagateFromScratch ⟨{}, g⟩ with
  | ok value s =>
      rw [hrun] at heval
      have hlower := (hbounds s hrun).1
      have hedge : s.domains.lower.shape.edge 0 2 := heval
      rw [hlower] at hedge
      exact ⟨hg, hok.mp ⟨s, hrun⟩, fun H hH => hedge H hH⟩
  | error failure s =>
      rw [hrun] at heval
      exact absurd heval (by simp)

end Transitivity

end GraphInterval
