import GraphInterval.Proofs.Connectivity.Exact
import GraphInterval.Proofs.Degree.Filter
import GraphInterval.Proofs.GraphVar.Refinement
import GraphInterval.Proofs.Transitivity.Incremental
import GraphInterval.Session

/-!
# What a propagation leaves

A variable is stable under a constraint if no rule of it applies.  Whatever
the propagator, a propagation that succeeds leaves a stable variable, and of
all stable variables in the domain it leaves the one with the largest domain;
one that fails found that the domain has no stable variable.  Nothing else is
needed to reason about several propagators that take turns.
-/

namespace GraphInterval

namespace Propagator

abbrev State := Posted Propagator GraphVar

variable {p : Propagator} {g g' h : GraphVar} {s : State} {failure : Failure}

/-- No rule of the constraint applies. -/
def Stable : Propagator → GraphVar → Prop
  | transitivity _, g => g.Closed
  | connectivity _, g => g.Linked
  | degree limit, g => limit.Limits g

/-- The propagator was posted on a variable of this size and kind. -/
def Suits : Propagator → GraphVar → Prop
  | transitivity _, _ => True
  | connectivity c, g => c.Suits g
  | degree limit, g => limit.Suits g

/-- The propagator may rely on the events that it has not seen yet. -/
def Resumable : Propagator → GraphVar → Prop
  | transitivity t, g => t.fullPassPending = false → Transitivity.Current ⟨t, g⟩
  | connectivity _, _ | degree _, _ => True

theorem suits_make {constraint : Constraint} (hp : make g constraint = .ok p) : p.Suits g := by
  cases constraint with
  | transitive =>
      cases hp
      trivial
  | connected =>
      cases hp
      exact Connectivity.suits_make g
  | degreeAtMost orientation bound =>
      rw [make] at hp
      cases hlimit : DegreeLimit.make orientation bound g with
      | error refusal => simp [hlimit, Except.map] at hp
      | ok limit =>
          rw [hlimit] at hp
          cases hp
          exact DegreeLimit.suits_make hlimit

/-- A fresh propagator does not look at events. -/
theorem resumable_make {constraint : Constraint} (hp : make g constraint = .ok p) :
    p.Resumable g := by
  cases constraint with
  | transitive =>
      cases hp
      exact fun hpass => absurd hpass (by simp)
  | connected =>
      cases hp
      trivial
  | degreeAtMost orientation bound =>
      rw [make] at hp
      cases hlimit : DegreeLimit.make orientation bound g with
      | error refusal => simp [hlimit, Except.map] at hp
      | ok limit =>
          rw [hlimit] at hp
          cases hp
          trivial

theorem Suits.congr (hp : p.Suits g) (horder : g'.order = g.order)
    (hdirected : g'.directed = g.directed) : p.Suits g' := by
  cases p with
  | transitivity t => trivial
  | connectivity c => exact Eq.trans hp horder.symm
  | degree limit => exact ⟨hdirected ▸ hp.supports, hp.size_eq.trans horder.symm⟩

/-- The propagator still has its constraint, on a domain that was only narrowed. -/
structure Follows (p : Propagator) (g : GraphVar) (s : State) : Prop where
  narrows : g.Narrows s.domains
  suits : s.propagator.Suits s.domains
  stable_iff : ∀ h, s.propagator.Stable h ↔ p.Stable h

/-- The domain was narrowed to the largest stable one. -/
structure Completed (p : Propagator) (g : GraphVar) (s : State) : Prop extends Follows p g s where
  stable : p.Stable s.domains
  resumable : s.propagator.Resumable s.domains
  widest : ∀ h : GraphVar, h.Valid → p.Stable h → h.Refines g → h.Refines s.domains

/-- The domain contains no stable one. -/
structure Failed (p : Propagator) (g : GraphVar) (failure : Failure) (s : State) : Prop
    extends Follows p g s where
  not_fault : ∀ fault, failure ≠ .fault fault
  empty : ∀ h : GraphVar, h.Valid → p.Stable h → ¬ h.Refines g

/-! ### Transitive graphs -/

theorem completed_transitivity (hg : g.Valid) {t : Transitivity} {s : Transitivity.State}
    (hs : Transitivity.Completed g s) :
    Completed (transitivity t) g ⟨transitivity s.propagator, s.domains⟩ := by
  have hfiltered := hs.filtered
  refine ⟨⟨hfiltered.narrows, trivial, fun _ => Iff.rfl⟩, hfiltered.closed,
    fun _ => hs.current hg, fun h hh hclosed href => ?_⟩
  obtain ⟨hlower, hupper⟩ := GraphVar.Closed.bounds_eq hh hclosed
  have hkeeps : ∀ H ∈ h.transitiveGraphs, s.domains.Admits H := fun H hH =>
    hfiltered.keeps H ⟨href.admits hH.1, hH.2⟩
  refine .of_graphs (href.order_eq.trans (hfiltered.narrows.order hg).symm)
    (href.directed_eq.trans (hfiltered.narrows.directed hg).symm) hkeeps (fun v hv => ?_)
    (fun a b hab => ?_) ⟨fun v hv => ?_, fun a b hab => ?_⟩
  · rw [hlower]
    exact hv
  · change h.lower.shape.edge a b
    rw [hlower]
    exact fun H hH => (hkeeps H hH).lower_le.2 a b hab
  · rwa [hupper] at hv
  · rwa [hupper] at hab

theorem failed_transitivity {t : Transitivity} {s : Transitivity.State}
    (hs : Transitivity.Failed g failure s) :
    Failed (transitivity t) g failure ⟨transitivity s.propagator, s.domains⟩ := by
  refine ⟨⟨hs.narrows, trivial, fun _ => Iff.rfl⟩, ?_, fun h hh hclosed href => ?_⟩
  · intro fault
    rw [hs.failure_eq]
    exact Failure.noConfusion
  · obtain ⟨hadmits, htransitive⟩ := GraphVar.Closed.lower_mem hh hclosed
    exact hs.empty _ ⟨href.admits hadmits, htransitive⟩

/-! ### Connected graphs -/

theorem completed_connectivity (hg : g.Valid) {c : Connectivity} {s : Connectivity.State}
    (hs : Connectivity.Completed g s) :
    Completed (connectivity c) g ⟨connectivity s.propagator, s.domains⟩ := by
  have hfiltering := hs.filtering
  refine ⟨⟨hfiltering.narrows, hfiltering.suits, fun _ => Iff.rfl⟩, hs.linked, trivial,
    fun h hh hlinked href => ?_⟩
  obtain ⟨hnode, hupper⟩ := GraphVar.Linked.bounds_eq hh hlinked
  have hkeeps : ∀ H ∈ h.connectedGraphs, s.domains.Admits H := fun H hH =>
    hfiltering.keeps H ⟨href.admits hH.1, hH.2⟩
  refine .of_graphs (href.order_eq.trans (hfiltering.narrows.order hg).symm)
    (href.directed_eq.trans (hfiltering.narrows.directed hg).symm) hkeeps (fun v hv => ?_)
    (fun a b hab => ?_) ⟨fun v hv => ?_, fun a b hab => ?_⟩
  · rw [hnode]
    exact hv
  · exact href.lower_le.2 a b ((hfiltering.isMandatory a b).symm.trans hab)
  · rwa [hupper] at hv
  · rwa [hupper] at hab

theorem failed_connectivity {c : Connectivity} {s : Connectivity.State}
    (hs : Connectivity.Failed g failure s) :
    Failed (connectivity c) g failure ⟨connectivity s.propagator, s.domains⟩ := by
  refine ⟨⟨hs.narrows, hs.suits, fun _ => Iff.rfl⟩, ?_, fun h hh hlinked href => ?_⟩
  · intro fault
    rw [hs.failure_eq]
    exact Failure.noConfusion
  · obtain ⟨H, hadmits, hconnected⟩ := GraphVar.Linked.nonempty hh hlinked
    exact hs.empty H ⟨href.admits hadmits, hconnected⟩

/-! ### Bounded degrees -/

theorem follows_degree (hg : g.Valid) {limit : DegreeLimit} (hlimit : limit.Suits g)
    {s : DegreeLimit.State} (hs : limit.Filtering g s) :
    Follows (degree limit) g ⟨degree s.propagator, s.domains⟩ := by
  refine ⟨hs.narrows, ⟨?_, ?_⟩, fun h => ?_⟩
  · rw [hs.orientation_eq, hs.narrows.directed hg]
    exact hlimit.supports
  · rw [hs.bounds_eq, hs.narrows.order hg]
    exact hlimit.size_eq
  · exact DegreeLimit.limits_congr hs.orientation_eq hs.bounds_eq h

theorem completed_degree (hg : g.Valid) {limit : DegreeLimit} (hlimit : limit.Suits g)
    {s : DegreeLimit.State} (hs : limit.Completed g s) :
    Completed (degree limit) g ⟨degree s.propagator, s.domains⟩ := by
  have hfiltering := hs.filtering
  refine ⟨follows_degree hg hlimit hfiltering, hs.limits, trivial, fun h hh hlimits href => ?_⟩
  refine ⟨href.order_eq.trans (hfiltering.narrows.order hg).symm,
    href.directed_eq.trans (hfiltering.narrows.directed hg).symm, ?_, fun v hv => ?_,
    fun a b hab => ?_⟩
  · rw [hfiltering.lower_eq]
    exact href.lower_le
  · exact (hfiltering.isPotentialNode v).trans (href.upper_le.1 v hv)
  · by_contra hnot
    have hgone : s.domains.isPotential a b = false := Bool.eq_false_iff.mpr hnot
    exact hlimits.not_excess hg hh href hab (hfiltering.removed a b (href.upper_le.2 a b hab) hgone)

theorem failed_degree (hg : g.Valid) {limit : DegreeLimit} (hlimit : limit.Suits g)
    {s : DegreeLimit.State} (hs : limit.Failed g failure s) :
    Failed (degree limit) g failure ⟨degree s.propagator, s.domains⟩ := by
  refine ⟨follows_degree hg hlimit hs.filtering, ?_, fun h hh hlimits href => ?_⟩
  · intro fault
    rw [hs.failure_eq]
    exact Failure.noConfusion
  · obtain ⟨v, -, hexceeds⟩ := hs.exceeds
    exact absurd hexceeds (Nat.not_lt_of_le (hlimits.degree_le hg hh href v))

/-! ### All propagators -/

theorem propagateFromScratch_wp (hg : g.Valid) (hp : p.Suits g) :
    propagateFromScratch.wp (fun _ s => Completed p g s) (Failed p g) ⟨p, g⟩ := by
  rw [propagateFromScratch, Attempt.wp_bind, Attempt.wp_get]
  cases p with
  | transitivity t =>
      exact (Attempt.wp_within _).mpr (Attempt.wp_mono
        (Transitivity.propagateFromScratch_wp hg t)
        (fun _ _ hs => completed_transitivity hg hs) fun _ _ hs => failed_transitivity hs)
  | connectivity c =>
      exact (Attempt.wp_within _).mpr (Attempt.wp_mono
        (Connectivity.propagateFromScratch_wp hg hp)
        (fun _ _ hs => completed_connectivity hg hs) fun _ _ hs => failed_connectivity hs)
  | degree limit =>
      exact (Attempt.wp_within _).mpr (Attempt.wp_mono
        (DegreeLimit.propagateFromScratch_wp hg limit)
        (fun _ _ hs => completed_degree hg hp hs) fun _ _ hs => failed_degree hg hp hs)

theorem propagate_wp (hg : g.Valid) (hp : p.Suits g) (hresumable : p.Resumable g) :
    propagate.wp (fun _ s => Completed p g s) (Failed p g) ⟨p, g⟩ := by
  rw [propagate, Attempt.wp_bind, Attempt.wp_get]
  cases p with
  | transitivity t =>
      exact (Attempt.wp_within _).mpr (Attempt.wp_mono
        (Transitivity.propagate_wp (s := ⟨t, g⟩) hg hresumable)
        (fun _ _ hs => completed_transitivity hg hs) fun _ _ hs => failed_transitivity hs)
  | connectivity c => exact propagateFromScratch_wp hg hp
  | degree limit => exact propagateFromScratch_wp hg hp

/-- A propagation of a stable variable changes nothing. -/
theorem propagateFromScratch_of_stable (hg : g.Valid) (hp : p.Suits g) (hstable : p.Stable g) :
    ∃ s, propagateFromScratch ⟨p, g⟩ = .ok () s ∧ s.domains = g := by
  have hwp := Attempt.wp_mono (propagateFromScratch_wp hg hp) (fun _ _ hs => hs)
    fun _ _ hs => hs.empty g hg hstable (.refl g)
  obtain ⟨_, s, hrun, hs⟩ := Attempt.exists_ok hwp
  exact ⟨s, hrun, hs.narrows.eq_of_refines hg (hs.widest g hg hstable (.refl g))⟩

end Propagator

/-! ### Sessions on a graph -/

namespace Session

variable {s : Session GraphVar} {p : Propagator} {index : Nat}

theorem graph_eq (s : Session GraphVar) : s.graph = s.domains := rfl

/-- The session after a propagation of one propagator. -/
def returned (s : Session GraphVar) (index : Nat) (t : Propagator.State) : Session GraphVar :=
  { s with
    domains := t.domains
    propagators := s.propagators.setIfInBounds index t.propagator }

theorem propagation_wp {run : Propagator.Run Unit} {Q : Unit → Session GraphVar → Prop}
    {E : Failure → Session GraphVar → Prop} (hp : s.propagators[index]? = some p) :
    (propagation index run).wp Q E s ↔
      run.wp (fun a t => Q a (s.returned index t)) (fun f t => E f (s.returned index t))
        ⟨p, s.domains⟩ := by
  rw [propagation, Attempt.wp_bind, propagator, Attempt.wp_bind, Attempt.wp_get]
  simp only [hp]
  rw [Attempt.wp_pure, Attempt.wp_within]
  rfl

theorem propagators_returned (s : Session GraphVar) (index : Nat) (t : Propagator.State)
    (hindex : index < s.propagators.size) (i : Nat) :
    (s.returned index t).propagators[i]? =
      if index = i then some t.propagator else s.propagators[i]? := by
  rw [returned, Array.getElem?_setIfInBounds, if_pos hindex]

end Session

end GraphInterval
