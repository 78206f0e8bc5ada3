import GraphInterval.Proofs.Domain.Exact
import GraphInterval.Proofs.Tour.Support

/-!
# The end of a propagation

A propagation repeats its ascent as long as the last one raised the lower bound
of the cost.  No iteration moves the upper bound, and none leaves the lower
bound above it, whatever the graph, the costs and the penalties are.  So every
repetition shortens the interval of the cost, the bound on the repetitions is
never met, and the propagation is the loop without a bound.
-/

namespace GraphInterval

namespace Attempt

variable {σ : Type}

/-- The loop without a bound, from a state to its result, with the number of its steps. -/
inductive Repeats (step : Attempt σ Bool) :
    σ → ℕ → EStateM.Result Failure σ Unit → Prop where
  | again {s s' : σ} {count : ℕ} {result : EStateM.Result Failure σ Unit} :
      step s = .ok true s' → Repeats step s' count result → Repeats step s (count + 1) result
  | stop {s s' : σ} : step s = .ok false s' → Repeats step s 1 (.ok () s')
  | fail {s s' : σ} {failure : Failure} :
      step s = .error failure s' → Repeats step s 1 (.error failure s')

/-- A bounded loop is the loop without a bound if every step that asks for another one lowers a
measure that starts below the bound. -/
theorem repeats_repeatWhile {step : Attempt σ Bool} {I : σ → Prop} {m : σ → ℕ}
    (hstep : ∀ s, I s → step.wp (fun again s' => I s' ∧ (again = true → m s' < m s))
      (fun _ _ => True) s)
    (bound : ℕ) {s : σ} (h : I s) (hbound : m s < bound) :
    ∃ count ≤ m s + 1, Repeats step s count (repeatWhile step bound s) := by
  induction bound generalizing s with
  | zero => exact absurd hbound (Nat.not_lt_zero _)
  | succ bound ih =>
      cases hrun : step s with
      | error failure s' =>
          have hloop : repeatWhile step (bound + 1) s = .error failure s' := bind_eq_of_error hrun
          exact ⟨1, Nat.le_add_left 1 _, hloop ▸ .fail hrun⟩
      | ok again s' =>
          obtain ⟨h', hless⟩ := of_wp_ok (hstep s h) hrun
          cases again with
          | true =>
              have hloop : repeatWhile step (bound + 1) s = repeatWhile step bound s' :=
                bind_eq_of_ok hrun
              have hlower := hless rfl
              obtain ⟨count, hcount, hrepeats⟩ := ih h' (by omega)
              exact ⟨count + 1, by omega, hloop ▸ .again hrun hrepeats⟩
          | false =>
              have hloop : repeatWhile step (bound + 1) s = .ok () s' := bind_eq_of_ok hrun
              exact ⟨1, Nat.le_add_left 1 _, hloop ▸ .stop hrun⟩

end Attempt

namespace Tour

variable {α : Type} [Scalar α] {upper : ℤ} {s : Posted (Tour α) TourDomains}

/-- The interval of the cost is not empty, and ends where it ended before. -/
structure Bracketed (upper : ℤ) (s : Posted (Tour α) TourDomains) : Prop where
  valid : s.domains.cost.Valid
  upper_eq : s.domains.cost.upper = upper

omit [Scalar α] in
/-- A change that leaves the cost alone. -/
theorem Bracketed.replace {s' : Posted (Tour α) TourDomains} (h : Bracketed upper s)
    (hcost : s'.domains.cost = s.domains.cost) : Bracketed upper s' :=
  ⟨hcost ▸ h.valid, hcost ▸ h.upper_eq⟩

theorem raiseCost_bracketed (h : Bracketed upper s) (bound : α) :
    (raiseCost bound : Run α α).wp (fun _ s' => Bracketed upper s') (fun _ _ => True) s := by
  refine Attempt.wp_mono (raiseCost_spec rfl) ?_ fun _ _ _ => trivial
  rintro _ s' ⟨-, -, -, hupper, hlower, hfits⟩
  refine ⟨?_, hupper.trans h.upper_eq⟩
  rw [Bounds.Valid, hlower, hupper]
  exact max_le h.valid hfits

theorem fastIteration_bracketed (h : Bracketed upper s) :
    (fastIteration : Run α α).wp (fun _ s' => Bracketed upper s') (fun _ _ => True) s := by
  rw [wp_fastIteration]
  refine Attempt.wp_mono (Attempt.wp_trivial _ _) (fun _ fast _ => ?_) fun _ _ _ => trivial
  apply raiseCost_bracketed
  exact h.replace rfl

theorem pruningIteration_bracketed (h : Bracketed upper s) :
    (pruningIteration : Run α α).wp (fun _ s' => Bracketed upper s') (fun _ _ => True) s := by
  rw [wp_pruningIteration]
  refine Attempt.wp_mono (Attempt.wp_trivial _ _) (fun _ thorough _ => ?_) fun _ _ _ => trivial
  refine Attempt.wp_mono (raiseCost_bracketed (h.replace ?_) _) (fun bound s' h' => ?_)
    fun _ _ _ => trivial
  · rfl
  · rw [wp_pruneGraph]
    exact Attempt.wp_mono (Attempt.wp_trivial _ _) (fun _ _ _ => h'.replace rfl)
      fun _ _ _ => trivial

/-- An ascent whose cost keeps its upper bound. -/
def bracketing (upper : ℤ) : Stages α :=
  { before := Bracketed upper
    answered := fun _ => Bracketed upper
    stepped := Bracketed upper
    failed := fun _ _ => True
    factor := fun _ => True }

theorem linked_bracketing : (bracketing upper : Stages α).Linked := by
  constructor
  · intro alpha bound s _ h
    rw [ascend, Attempt.wp_modify]
    exact Bracketed.replace h rfl
  · exact fun h => h
  · exact fun h => h
  · exact fun h => Bracketed.replace h rfl
  · exact fun _ => ⟨trivial, trivial⟩
  · exact fun _ _ => trivial
  · exact fun _ => trivial

/-- The number of integers by which the lower bound of the cost may still rise. -/
def slack (s : Posted (Tour α) TourDomains) : ℕ :=
  (s.domains.cost.upper - s.domains.cost.lower).toNat

/-- An ascent asks for another one if it raised the lower bound. -/
theorem relaxOnce_raises (s : Posted (Tour α) TourDomains) :
    (relaxOnce : Run α Bool).wp
      (fun again s' => again = true → s.domains.cost.lower < s'.domains.cost.lower)
      (fun _ _ => True) s := by
  simp only [relaxOnce, Attempt.wp_bind, Attempt.wp_get, Attempt.wp_pure]
  exact Attempt.wp_mono (Attempt.wp_trivial _ _) (fun _ _ _ => of_decide_eq_true)
    fun _ _ _ => trivial

theorem relaxOnce_slack (h : Bracketed upper s) :
    (relaxOnce : Run α Bool).wp
      (fun again s' => Bracketed upper s' ∧ (again = true → slack s' < slack s))
      (fun _ _ => True) s := by
  have hkeeps := linked_bracketing.relaxOnce_wp (fun _ h => fastIteration_bracketed h)
    (fun _ h => pruningIteration_bracketed h) h
  refine Attempt.wp_mono (Attempt.wp_and hkeeps (relaxOnce_raises s)) ?_ fun _ _ _ => trivial
  rintro again s' ⟨h', hraises⟩
  refine ⟨h', fun hagain => ?_⟩
  have hlower := hraises hagain
  have hvalid : s'.domains.cost.lower ≤ s'.domains.cost.upper := h'.valid
  rw [slack, slack, h.upper_eq, h'.upper_eq]
  rw [h'.upper_eq] at hvalid
  omega

/-- A propagation that does not wait ends with the result of the loop without a bound, in which
every ascent but the last one raised the lower bound of the cost. -/
theorem propagateFromScratch_terminates {t : Tour α} {d : TourDomains}
    (hactive : t.isWaiting ≠ true) (hd : d.cost.Valid) :
    ∃ count ≤ (d.cost.upper - d.cost.lower).toNat + 1,
      Attempt.Repeats relaxOnce ⟨t.started d.graph, d⟩ count (propagateFromScratch ⟨t, d⟩) := by
  have hstart : Bracketed d.cost.upper ⟨t.started d.graph, d⟩ := ⟨hd, rfl⟩
  rw [propagateFromScratch_eq hactive]
  exact Attempt.repeats_repeatWhile (fun _ h => relaxOnce_slack h) _ hstart (Nat.lt_succ_self _)

end Tour

end GraphInterval
