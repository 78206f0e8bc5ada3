import GraphInterval.Proofs.Tour.Ascent
import GraphInterval.Proofs.Tour.Penalties

/-!
# One iteration of the ascent

A one-tree bounds the penalised costs of all tours, and so their costs once
the total penalty is taken off.  Rounding the bound to an integer never lifts
it above the cost of a tour, which is an integer of 32 bits or more than the
cost domain allows.  Pruning spares every tour within the upper bound, because
the budget is that bound plus the total penalty.
-/

namespace GraphInterval

open Exact

/-- The tour is one of the graph, and its cost lies within the bounds. -/
structure TourDomains.Admits (c : Sym2 ℕ → ℤ) (H : Finset (Sym2 ℕ)) (d : TourDomains) : Prop where
  isPotential : ∀ a b, s(a, b) ∈ H → d.graph.isPotential a b = true
  isMandatory : ∀ a b, d.graph.isMandatory a b = true → s(a, b) ∈ H
  lower_le : d.cost.lower ≤ ∑ e ∈ H, c e
  le_upper : ∑ e ∈ H, c e ≤ d.cost.upper

theorem TourDomains.Admits.candidate {n : ℕ} {c : Sym2 ℕ → ℤ} {H : Finset (Sym2 ℕ)}
    {d : TourDomains} (hd : d.Admits c H) (hn : 3 ≤ n) (hH : IsTour n H) :
    Candidate (IsOneTree n) d.graph.mandatoryEdges d.graph.possibleEdges H := by
  refine ⟨hH.isOneTree hn, ?_, fun e he => ?_⟩
  · rintro e ⟨a, b, rfl, hab⟩
    exact hd.isMandatory a b hab
  · induction e with
    | h a b => exact ⟨a, b, rfl, hd.isPotential a b he⟩

namespace Tour

variable {n : ℕ} {c : Sym2 ℕ → ℤ} {o : AscentOptions ℚ} {π : ℕ → ℚ} {t : Tour Exact}
variable {tours : Set (Finset (Sym2 ℕ))} {s : Posted (Tour Exact) TourDomains}

/-- What every iteration keeps: all given tours remain. -/
structure Ascending (n : ℕ) (c : Sym2 ℕ → ℤ) (o : AscentOptions ℚ)
    (tours : Set (Finset (Sym2 ℕ))) (s : Posted (Tour Exact) TourDomains) : Prop where
  charged : ∃ π, Charged n c o π s.propagator
  simple : s.domains.graph.IsSimple n
  range : -2 ^ 31 ≤ s.domains.cost.lower
  isTour : ∀ H ∈ tours, IsTour n H
  admits : ∀ H ∈ tours, s.domains.Admits c H

/-- What is left after a failure: there was no tour. -/
structure Stopped (n : ℕ) (c : Sym2 ℕ → ℤ) (o : AscentOptions ℚ)
    (tours : Set (Finset (Sym2 ℕ))) (s : Posted (Tour Exact) TourDomains) : Prop where
  settled : ∃ π, Settled n c o π s.propagator
  none : ∀ H, H ∉ tours

/-- A change to the propagator alone. -/
theorem Ascending.replace {s' : Posted (Tour Exact) TourDomains} (h : Ascending n c o tours s)
    (hcharged : Charged n c o π s'.propagator) (hdomains : s'.domains = s.domains) :
    Ascending n c o tours s' := by
  refine ⟨⟨π, hcharged⟩, ?_, ?_, h.isTour, ?_⟩
  · rw [hdomains]
    exact h.simple
  · rw [hdomains]
    exact h.range
  · rw [hdomains]
    exact h.admits

theorem Ascending.candidate (h : Ascending n c o tours s) (hn : 3 ≤ n) {H : Finset (Sym2 ℕ)}
    (hH : H ∈ tours) : Candidate (IsOneTree n) s.domains.graph.mandatoryEdges
      s.domains.graph.possibleEdges H :=
  (h.admits H hH).candidate hn (h.isTour H hH)

/-! ### Raising the lower bound -/

theorem settle_le (tolerance : Exact) (q : ℚ) :
    ∃ r ≤ q, settle tolerance (.number q) = .number r := by
  rw [settle]
  split
  · exact ⟨⌊q⌋, Int.floor_le q, rfl⟩
  · exact ⟨q, le_refl q, rfl⟩

/-- The ceiling of a number as an integer of 32 bits. -/
theorem toInt32_ceil (q : ℚ) : Scalar.toInt32 (Scalar.ceil (Exact.number q)) = clampInt32 ⌈q⌉ := by
  change clampInt32 (if ((⌈q⌉ : ℤ) : ℚ) < 0 then ⌈((⌈q⌉ : ℤ) : ℚ)⌉ else ⌊((⌈q⌉ : ℤ) : ℚ)⌋) = _
  rw [Int.ceil_intCast, Int.floor_intCast, ite_self]

theorem toInt32_ceil_le {q : ℚ} {z : ℤ} (hq : q ≤ z) (hz : -2 ^ 31 ≤ z) :
    Scalar.toInt32 (Scalar.ceil (Exact.number q)) ≤ z := by
  have hceil : ⌈q⌉ ≤ z := Int.ceil_le.mpr hq
  rw [toInt32_ceil, clampInt32]
  omega

/-- A bound that no given tour falls below is put on the costs. -/
theorem raiseCost_wp (h : Ascending n c o tours s) {q : ℚ}
    (hq : ∀ H ∈ tours, q ≤ ((∑ e ∈ H, c e : ℤ) : ℚ)) :
    (raiseCost (.number q) : Run Exact Exact).wp
      (fun bound s' => bound.IsNumber ∧ Ascending n c o tours s' ∧
        s'.propagator = s.propagator ∧ s'.domains.graph = s.domains.graph)
      (fun _ s' => Stopped n c o tours s') s := by
  obtain ⟨π, hcharged⟩ := h.charged
  obtain ⟨r, hr, hsettle⟩ := settle_le s.propagator.options.integralityTolerance q
  have hraised : ∀ H ∈ tours,
      Scalar.toInt32 (Scalar.ceil (Exact.number r)) ≤ ∑ e ∈ H, c e := fun H hH =>
    toInt32_ceil_le (hr.trans (hq H hH)) (h.range.trans (h.admits H hH).lower_le)
  refine Attempt.wp_mono (raiseCost_spec hsettle) ?_ ?_
  · rintro _ ⟨t', d'⟩ ⟨rfl, rfl, hgraph, hupper, hlower, -⟩
    refine ⟨⟨r, rfl⟩, ⟨⟨π, hcharged⟩, hgraph ▸ h.simple, ?_, h.isTour, fun H hH => ?_⟩, rfl, hgraph⟩
    · exact hlower ▸ h.range.trans (le_max_left _ _)
    · have had := h.admits H hH
      exact ⟨hgraph ▸ had.isPotential, hgraph ▸ had.isMandatory,
        hlower ▸ max_le had.lower_le (hraised H hH), hupper ▸ had.le_upper⟩
  · rintro _ _ ⟨-, rfl, hwipeout⟩
    refine ⟨⟨π, hcharged.toSettled⟩, fun H hH => ?_⟩
    exact absurd ((hraised H hH).trans (h.admits H hH).le_upper) (not_le.mpr hwipeout)

/-! ### The two iterations -/

theorem cost_penalised (hn : 3 ≤ n) {H : Finset (Sym2 ℕ)} (hH : IsTour n H) :
    totalCost (penalised (fun e => c e) π) H =
      ((∑ e ∈ H, c e : ℤ) : ℚ) + 2 * ((List.range n).map π).sum := by
  rw [hH.totalCost_penalised hn, totalCost, Int.cast_sum]

/-- A cheapest one-tree bounds the cost of a tour. -/
theorem bound_le_cost (hn : 3 ≤ n) {H T : Finset (Sym2 ℕ)} (hH : IsTour n H)
    (hle : totalCost (penalised (fun e => c e) π) T ≤ totalCost (penalised (fun e => c e) π) H) :
    totalCost (penalised (fun e => c e) π) T - 2 * ((List.range n).map π).sum ≤
      ((∑ e ∈ H, c e : ℤ) : ℚ) := by
  rw [cost_penalised hn hH] at hle
  linarith

theorem fastIteration_wp (hn : 3 ≤ n) (h : Ascending n c o tours s) :
    (fastIteration : Run Exact Exact).wp
      (fun bound s' => bound.IsNumber ∧ Ascending n c o tours s')
      (fun _ s' => Stopped n c o tours s') s := by
  obtain ⟨π, hcharged⟩ := h.charged
  rw [wp_fastIteration]
  have hself := s.propagator.costs.comparable_exact
  apply Attempt.wp_mono (Attempt.wp_and (Prim.compute_sized hcharged.fast hself _)
    (Prim.compute_wp (by omega) hcharged.fast hcharged.costs h.simple))
  · rintro _ p ⟨hp, hrepresents, hcheapest⟩
    have hbound : p.bound - s.propagator.totalPenalty =
        .number (totalCost (penalised (fun e => c e) π) p.tree.edgeSet -
          2 * ((List.range n).map π).sum) := by
      rw [Prim.bound, hrepresents.cost_eq, hcharged.totalPenalty_eq, number_sub_number]
    rw [hbound]
    apply Attempt.wp_mono (raiseCost_wp (?_ : Ascending n c o tours _) ?_)
    · exact fun _ _ h' => ⟨h'.1, h'.2.1⟩
    · exact fun _ _ h' => h'
    · exact h.replace (hcharged.replace hp hcharged.thorough rfl rfl) rfl
    · intro H hH
      have hcandidate := h.candidate hn hH
      exact bound_le_cost hn (h.isTour H hH) ((hcheapest H hcandidate).le H hcandidate)
  · rintro _ p ⟨hp, -, hnone⟩
    exact ⟨⟨π, hcharged.toSettled.replace hp hcharged.thorough rfl⟩, fun H hH =>
      hnone H (h.candidate hn hH)⟩

/-- Pruning removes no edge of a tour within the bounds and enforces no other edge. -/
theorem pruneGraph_wp (hn : 3 ≤ n) (hε : 0 ≤ o.pruningEpsilon) (h : Ascending n c o tours s)
    (hcharged : Charged n c o π s.propagator)
    (hcomputed : Kruskal.Computed n (penalised (fun e => c e) π) s.domains.graph
      s.propagator.thorough) :
    (pruneGraph (s.propagator.pruningBudget s.domains.cost)).wp
      (fun _ s' => Ascending n c o tours s') (fun _ _ => False) s := by
  have hbudget : s.propagator.pruningBudget s.domains.cost =
      .number (s.domains.cost.upper + 2 * ((List.range n).map π).sum + o.pruningEpsilon) := by
    rw [pruningBudget, hcharged.options_eq, hcharged.totalPenalty_eq]
    rfl
  have hafford : ∀ H ∈ tours, totalCost (penalised (fun e => c e) π) H ≤
      s.domains.cost.upper + 2 * ((List.range n).map π).sum + o.pruningEpsilon := by
    intro H hH
    have hup : ((∑ e ∈ H, c e : ℤ) : ℚ) ≤ s.domains.cost.upper :=
      Int.cast_le.mpr (h.admits H hH).le_upper
    rw [cost_penalised hn (h.isTour H hH)]
    linarith
  rw [wp_pruneGraph]
  rw [hbudget]
  apply Attempt.wp_mono (Kruskal.prune_wp (by omega) h.simple hcomputed _) _ fun _ _ h => h
  rintro pruned ⟨k, g⟩ htightened
  have hg := h.simple.narrows htightened.narrows
  refine ⟨⟨π, hcharged.replace hcharged.fast htightened.sized rfl rfl⟩, hg, h.range, h.isTour,
    fun H hH => ?_⟩
  have hcandidate := (htightened.affordable h.simple hcomputed.represents.cost_eq
    ⟨h.candidate hn hH, number_le_number.mpr (hafford H hH)⟩).candidate
  exact ⟨fun a b hab => hg.mem_possibleEdges.mp (hcandidate.possible _ hab),
    fun a b hab => hcandidate.mandatory _ (hg.mem_mandatoryEdges.mpr hab),
    (h.admits H hH).lower_le, (h.admits H hH).le_upper⟩

theorem pruningIteration_wp (hn : 3 ≤ n) (hε : 0 ≤ o.pruningEpsilon)
    (h : Ascending n c o tours s) :
    (pruningIteration : Run Exact Exact).wp
      (fun bound s' => bound.IsNumber ∧ Ascending n c o tours s')
      (fun _ s' => Stopped n c o tours s') s := by
  obtain ⟨π, hcharged⟩ := h.charged
  rw [wp_pruningIteration]
  apply Attempt.wp_mono (Attempt.wp_and (Kruskal.compute_sized hcharged.thorough _ _)
    (Kruskal.compute_wp (by omega) hcharged.thorough hcharged.costs h.simple))
  · rintro _ k ⟨hk, hcomputed⟩
    have hbound : k.bound - s.propagator.totalPenalty =
        .number (totalCost (penalised (fun e => c e) π) k.tree.edgeSet -
          2 * ((List.range n).map π).sum) := by
      rw [Kruskal.bound, hcomputed.represents.cost_eq, hcharged.totalPenalty_eq, number_sub_number]
    rw [hbound]
    apply Attempt.wp_mono (raiseCost_wp (?_ : Ascending n c o tours _) ?_)
    · rintro bound ⟨t, d⟩ ⟨hnumber, hraised, rfl, hgraph⟩
      apply Attempt.wp_mono (pruneGraph_wp (π := π) hn hε hraised _ _)
      · exact fun _ _ h' => ⟨hnumber, h'⟩
      · exact fun _ _ h' => h'.elim
      · exact hcharged.replace hcharged.fast hk rfl rfl
      · rw [hgraph]
        exact hcomputed
    · exact fun _ _ h' => h'
    · exact h.replace (hcharged.replace hcharged.fast hk rfl rfl) rfl
    · intro H hH
      exact bound_le_cost hn (h.isTour H hH) (hcomputed.cheapest.le H (h.candidate hn hH))
  · rintro _ k ⟨hk, -, hnone⟩
    exact ⟨⟨π, hcharged.toSettled.replace hcharged.fast hk rfl⟩, fun H hH =>
      hnone H (h.candidate hn hH)⟩

/-- A step changes the penalties alone. -/
theorem ascend_wp (h : Ascending n c o tours s) {alpha bound : Exact} (halpha : alpha.IsNumber)
    (hbound : bound.IsNumber) :
    (ascend alpha bound).wp (fun _ s' => Ascending n c o tours s')
      (fun _ s' => Stopped n c o tours s') s := by
  obtain ⟨π, hcharged⟩ := h.charged
  have hstep := isNumber_nextStep hcharged.options_eq hbound halpha s.domains.cost.upper
  generalize hnext : s.propagator.nextStep bound alpha s.domains.cost.upper = step at hstep
  have hstepped : Charged n c o π { s.propagator with step } :=
    hcharged.replace hcharged.fast hcharged.thorough rfl rfl
  obtain ⟨π', hmoved⟩ := hstepped.updatePenalties hstep
  rw [ascend, Attempt.wp_modify, hnext]
  exact h.replace hmoved rfl

end Tour

end GraphInterval
