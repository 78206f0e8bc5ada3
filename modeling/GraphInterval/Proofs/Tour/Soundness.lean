import GraphInterval.Proofs.GraphVar.Reachable
import GraphInterval.Proofs.Tour.Ascent
import GraphInterval.Proofs.Tour.Iteration

/-!
# Soundness of the ascent

Whatever happened to the propagator before, its penalties are numbers and its
finders have the sizes of the graph.  From any such state a propagation keeps
every tour of the graph whose cost lies within the bounds, and it fails only
if there is none.
-/

namespace GraphInterval

open Exact

/-- Domains of a tour over `n` nodes: an undirected graph without loops and a cost of 32 bits. -/
structure TourDomains.WellPosed (n : ℕ) (d : TourDomains) : Prop where
  reachable : d.graph.Reachable
  order_eq : d.graph.order = n
  undirected : d.graph.directed = false
  loopless : ∀ v, d.graph.isPotential v v = false
  range : -2 ^ 31 ≤ d.cost.lower

theorem TourDomains.WellPosed.simple {n : ℕ} {d : TourDomains} (hd : d.WellPosed n) :
    d.graph.IsSimple n :=
  ⟨hd.reachable.valid, hd.order_eq, hd.undirected, hd.loopless⟩

namespace Tour

variable {n : ℕ} {c : Sym2 ℕ → ℤ} {o : AscentOptions ℚ} {π : ℕ → ℚ}
variable {tours : Set (Finset (Sym2 ℕ))} {s : Posted (Tour Exact) TourDomains}

/-! ### The ascent -/

/-- An ascent that keeps all given tours. -/
def keeping (n : ℕ) (c : Sym2 ℕ → ℤ) (o : AscentOptions ℚ) (tours : Set (Finset (Sym2 ℕ))) :
    Stages Exact :=
  { before := Ascending n c o tours
    answered := fun bound s => bound.IsNumber ∧ Ascending n c o tours s
    stepped := Ascending n c o tours
    failed := fun _ => Stopped n c o tours
    factor := IsNumber }

theorem linked_keeping : (keeping n c o tours).Linked := by
  refine ⟨fun halpha h => ascend_wp h.2 halpha h.1, fun h => h.2, fun h => h, fun h => ?_,
    fun h => ?_, IsNumber.mul, fun hbeta => hbeta.div (isNumber_ofInt 2)⟩
  · obtain ⟨π, hcharged⟩ := h.charged
    exact h.replace (hcharged.replace hcharged.fast hcharged.thorough rfl rfl) rfl
  · obtain ⟨π, hcharged⟩ := h.charged
    rw [hcharged.options_eq]
    exact ⟨⟨_, rfl⟩, _, rfl⟩

theorem relaxOnce_wp (hn : 3 ≤ n) (hε : 0 ≤ o.pruningEpsilon) (h : Ascending n c o tours s) :
    (relaxOnce : Run Exact Bool).wp (fun _ s' => Ascending n c o tours s')
      (fun _ s' => Stopped n c o tours s') s :=
  linked_keeping.relaxOnce_wp (fun _ h => fastIteration_wp hn h)
    (fun _ h => pruningIteration_wp hn hε h) h

/-- A propagation keeps all tours within the bounds; it fails only if there is none. -/
theorem propagateFromScratch_wp (hn : 3 ≤ n) (hε : 0 ≤ o.pruningEpsilon)
    (ht : Settled n c o π s.propagator) (hg : s.domains.graph.IsSimple n)
    (hrange : -2 ^ 31 ≤ s.domains.cost.lower) (hisTour : ∀ H ∈ tours, IsTour n H)
    (hadmits : ∀ H ∈ tours, s.domains.Admits c H) :
    (propagateFromScratch : Run Exact Unit).wp
      (fun _ s' => (∃ π, Settled n c o π s'.propagator) ∧ ∀ H ∈ tours, s'.domains.Admits c H)
      (fun _ s' => Stopped n c o tours s') s := by
  simp only [propagateFromScratch, Posted.update, Attempt.wp_bind, Attempt.wp_get, Attempt.wp_ite,
    Attempt.wp_pure, Attempt.wp_modify]
  refine ⟨fun _ => ⟨⟨π, ht⟩, hadmits⟩, fun _ => ?_⟩
  apply Attempt.wp_mono (Attempt.wp_repeatWhile_of_step
    (I := Ascending n c o tours) (fun s h => relaxOnce_wp hn hε h) _ _)
  · intro _ s' h'
    obtain ⟨π', hcharged⟩ := h'.charged
    exact ⟨⟨π', hcharged.toSettled⟩, h'.admits⟩
  · exact fun _ _ h' => h'
  · refine ⟨⟨π, Settled.updateCosts ?_⟩, hg, hrange, hisTour, hadmits⟩
    exact ht.replace ht.fast ht.thorough rfl

/-! ### Earlier propagations -/

/-- The states of the propagator for a matrix of costs: it is posted, and then propagates on any
domains, with or without success, and hears of solutions. -/
inductive Hosted (n : ℕ) (rows : List (List ℤ)) (o : AscentOptions ℚ) : Tour Exact → Prop where
  | make {d : TourDomains} {t : Tour Exact} : d.WellPosed n →
      Tour.make rows o.exact d = .ok t → Hosted n rows o t
  | propagate {t : Tour Exact} (d : TourDomains) : Hosted n rows o t → d.WellPosed n →
      Hosted n rows o (propagateFromScratch.after ⟨t, d⟩).propagator
  | onSolution {t : Tour Exact} : Hosted n rows o t → Hosted n rows o t.onSolution

variable {rows : List (List ℤ)} {d : TourDomains} {t : Tour Exact} {H : Finset (Sym2 ℕ)}

/-- The table of the posted costs is that of a function of the edges. -/
def Prices (n : ℕ) (rows : List (List ℤ)) (c : Sym2 ℕ → ℤ) : Prop :=
  ∀ a < n, ∀ b < n, (Table.ofRows rows).entry a b 0 = c s(a, b)

/-- The propagator when it has been posted. -/
theorem of_make {α : Type} [Scalar α] {options : AscentOptions α} {t : Tour α}
    (horder : d.graph.order = n) (hmake : Tour.make rows options d = .ok t) : 3 ≤ n ∧ t =
      { options
        edgeCosts := Table.ofRows rows
        costs := Table.replicate n (Scalar.ofInt 0)
        penalties := Array.replicate n (Scalar.ofInt 0)
        totalPenalty := Scalar.ofInt 0
        step := Scalar.ofInt 0
        mandatoryEdges := []
        solutionFound := false
        fast := Prim.make n
        thorough := Kruskal.make n
        support := .none } := by
  rw [Tour.make, horder] at hmake
  split_ifs at hmake with hdirected hsmall hlength
  split at hmake
  · exact absurd hmake (by simp)
  · exact ⟨by omega, (Except.ok.inj hmake).symm⟩

theorem settled_make (hd : d.WellPosed n) (hrows : Prices n rows c)
    (hmake : Tour.make rows o.exact d = .ok t) : 3 ≤ n ∧ Settled n c o (fun _ => 0) t := by
  obtain ⟨hn, rfl⟩ := of_make hd.order_eq hmake
  refine ⟨hn, rfl, hrows, ?_, ?_, Prim.sized_make n, Kruskal.sized_make n⟩
  · simp
  · simp

/-- Every state of the propagator is settled. -/
theorem Hosted.settled (hrows : Prices n rows c) (hε : 0 ≤ o.pruningEpsilon)
    (ht : Hosted n rows o t) : 3 ≤ n ∧ ∃ π, Settled n c o π t := by
  induction ht with
  | make hd hmake =>
      obtain ⟨hn, hsettled⟩ := settled_make hd hrows hmake
      exact ⟨hn, _, hsettled⟩
  | propagate d _ hd ih =>
      obtain ⟨hn, π, hsettled⟩ := ih
      have hno : ∀ H ∈ (∅ : Set (Finset (Sym2 ℕ))), IsTour n H ∧ d.Admits c H := by simp
      have hwp := propagateFromScratch_wp hn hε (s := ⟨_, d⟩) hsettled hd.simple hd.range
        (fun H hH => (hno H hH).1) fun H hH => (hno H hH).2
      refine ⟨hn, Attempt.after_of_wp
        (P := fun s : Posted (Tour Exact) TourDomains => ∃ π, Settled n c o π s.propagator) ?_⟩
      apply Attempt.wp_mono hwp
      · exact fun _ _ h => h.1
      · exact fun _ _ h => h.settled
  | onSolution _ ih =>
      obtain ⟨hn, π, hsettled⟩ := ih
      exact ⟨hn, π, hsettled.replace hsettled.fast hsettled.thorough rfl⟩

/-- From every state of the propagator, a propagation on a graph with a Hamiltonian cycle whose
cost lies within the bounds succeeds, and the cycle remains one of the graph and of the bounds. -/
theorem propagateFromScratch_sound (hrows : Prices n rows c) (hε : 0 ≤ o.pruningEpsilon)
    (ht : Hosted n rows o t) (hd : d.WellPosed n) (hH : IsTour n H) (hadmits : d.Admits c H) :
    ∃ s, propagateFromScratch ⟨t, d⟩ = .ok () s ∧ s.domains.Admits c H := by
  obtain ⟨hn, π, hsettled⟩ := ht.settled hrows hε
  have honly : ∀ H' ∈ ({H} : Set (Finset (Sym2 ℕ))), IsTour n H' ∧ d.Admits c H' := by
    rintro H' rfl
    exact ⟨hH, hadmits⟩
  have hwp := propagateFromScratch_wp hn hε (s := ⟨t, d⟩) hsettled hd.simple hd.range
    (fun H hH => (honly H hH).1) fun H hH => (honly H hH).2
  obtain ⟨_, s, hrun, -, hs⟩ := Attempt.exists_ok
    (Attempt.wp_mono hwp (fun _ _ h => h) fun _ _ h => h.none H rfl)
  exact ⟨s, hrun, hs H rfl⟩

/-- In a triangle the only cycle remains, even if its cost is the upper bound. -/
theorem propagateFromScratch_sound_triangle :
    let g := (GraphVar.Mutation.removeEdge 2 2).run.after
      ((GraphVar.Mutation.removeEdge 1 1).run.after
        ((GraphVar.Mutation.removeEdge 0 0).run.after (GraphVar.unconstrained 3 false)))
    let d : TourDomains := { graph := g, cost := { lower := 0, upper := 6, trail := {} } }
    let rows : List (List ℤ) := [[0, 1, 2], [1, 2, 3], [2, 3, 4]]
    let c : Sym2 ℕ → ℤ := Sym2.lift ⟨fun a b => (a : ℤ) + b, fun a b => add_comm (a : ℤ) b⟩
    let o : AscentOptions ℚ :=
      { waitForFirstSolution := false, numSprints := 30, numOuterIterations := 5
        initialAlpha := 2, initialBeta := 1 / 2, integralityTolerance := 1 / 1000
        pruningEpsilon := 1 / 1000, stagnationOffset := 1 / 10 }
    let H : Finset (Sym2 ℕ) := {s(0, 1), s(1, 2), s(2, 0)}
    Prices 3 rows c ∧ 0 ≤ o.pruningEpsilon ∧ d.WellPosed 3 ∧ IsTour 3 H ∧ d.Admits c H ∧
      ∃ t s, Tour.make rows o.exact d = .ok t ∧ Hosted 3 rows o t ∧
        propagateFromScratch ⟨t, d⟩ = .ok () s ∧ s.domains.Admits c H := by
  intro g d rows c o H
  have hrows : Prices 3 rows c := by
    unfold Prices
    decide
  have hε : 0 ≤ o.pruningEpsilon := by
    norm_num [o]
  have hg : g.Reachable := .mutate _ (.mutate _ (.mutate _ (.unconstrained 3 false)))
  have hpotential : ∀ a < 3, ∀ b < 3, g.isPotential a b = !decide (a = b) := by decide +kernel
  have hmandatory : ∀ a < 3, ∀ b < 3, g.isMandatory a b = false := by decide +kernel
  have hmake : ∃ t, Tour.make rows o.exact d = .ok t := ⟨_, rfl⟩
  have hd : d.WellPosed 3 := by
    refine ⟨hg, rfl, rfl, fun v => Bool.eq_false_iff.mpr fun hv => ?_, by decide⟩
    have hlt := (hg.valid.lt_order hv).1
    exact absurd ((hpotential v hlt v hlt).symm.trans hv) (by simp)
  have hH : IsTour 3 H := ⟨[0, 1, 2], .refl _, rfl⟩
  have hadmits : d.Admits c H := by
    refine ⟨fun a b hab => ?_, fun a b hab => ?_, by decide, by decide⟩
    · simp only [H, Finset.mem_insert, Finset.mem_singleton, Sym2.eq_iff] at hab
      have hlt : a < 3 ∧ b < 3 ∧ a ≠ b := by omega
      refine (hpotential a hlt.1 b hlt.2.1).trans ?_
      simp [hlt.2.2]
    · obtain ⟨ha, hb⟩ := hg.valid.lt_order (hg.valid.isPotential hab)
      exact absurd ((hmandatory a ha b hb).symm.trans hab) (by simp)
  obtain ⟨t, hmake⟩ := hmake
  have ht : Hosted 3 rows o t := .make hd hmake
  obtain ⟨s, hrun, hs⟩ := propagateFromScratch_sound hrows hε ht hd hH hadmits
  exact ⟨hrows, hε, hd, hH, hadmits, t, s, hmake, ht, hrun, hs⟩

end Tour

end GraphInterval
