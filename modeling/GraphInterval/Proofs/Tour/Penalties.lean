import GraphInterval.Proofs.OneTree.Prim
import GraphInterval.Proofs.OneTree.Sensitivity
import GraphInterval.Proofs.Tour.Cycle
import GraphInterval.Tour.Relaxation
import Mathlib.Algebra.BigOperators.Ring.Finset

/-!
# Penalties in exact numbers

Between its iterations the ascent keeps a finite penalty for every node, and
it charges the edges with exactly these.  A step may lead anywhere, as long as
it is a number: the penalties only shift the costs of all tours together, so
no property of a step is needed for the bounds to be right.
-/

namespace GraphInterval

/-! ### Numbers -/

namespace Exact

/-- The value is finite. -/
def IsNumber (x : Exact) : Prop := ∃ q, x = .number q

variable {x y : Exact}

theorem isNumber_ofInt (z : ℤ) : (Scalar.ofInt z : Exact).IsNumber := ⟨z, rfl⟩

theorem IsNumber.add (hx : x.IsNumber) (hy : y.IsNumber) : (x + y).IsNumber := by
  obtain ⟨p, rfl⟩ := hx
  obtain ⟨q, rfl⟩ := hy
  exact ⟨p + q, rfl⟩

theorem IsNumber.sub (hx : x.IsNumber) (hy : y.IsNumber) : (x - y).IsNumber := by
  obtain ⟨p, rfl⟩ := hx
  obtain ⟨q, rfl⟩ := hy
  exact ⟨p - q, number_sub_number⟩

theorem IsNumber.mul (hx : x.IsNumber) (hy : y.IsNumber) : (x * y).IsNumber := by
  obtain ⟨p, rfl⟩ := hx
  obtain ⟨q, rfl⟩ := hy
  exact ⟨p * q, rfl⟩

theorem IsNumber.div (hx : x.IsNumber) (hy : y.IsNumber) : (x / y).IsNumber := by
  obtain ⟨p, rfl⟩ := hx
  obtain ⟨q, rfl⟩ := hy
  exact ⟨p / q, rfl⟩

theorem isNumber_sum {values : List Exact} (h : ∀ x ∈ values, x.IsNumber) :
    (Scalar.sum values).IsNumber :=
  List.foldlRecOn (motive := IsNumber) values (· + ·) (isNumber_ofInt 0)
    fun _ hsum x hx => hsum.add (h x hx)

end Exact

open Exact

/-- The parameters as exact numbers. -/
def AscentOptions.exact (o : AscentOptions ℚ) : AscentOptions Exact :=
  { waitForFirstSolution := o.waitForFirstSolution
    numSprints := o.numSprints
    numOuterIterations := o.numOuterIterations
    initialAlpha := .number o.initialAlpha
    initialBeta := .number o.initialBeta
    integralityTolerance := .number o.integralityTolerance
    pruningEpsilon := .number o.pruningEpsilon
    stagnationOffset := .number o.stagnationOffset }

/-- The usual parameters as rational numbers. -/
def AscentOptions.usual : AscentOptions ℚ :=
  { waitForFirstSolution := false
    numSprints := 30
    numOuterIterations := 5
    initialAlpha := 2
    initialBeta := 1 / 2
    integralityTolerance := 1 / 1000
    pruningEpsilon := 1 / 1000
    stagnationOffset := 1 / 10 }

namespace Tour

/-! ### The penalties of the nodes -/

/-- The penalties of the nodes are these numbers. -/
def HasPenalties (n : ℕ) (π : ℕ → ℚ) (t : Tour Exact) : Prop :=
  t.penalties.toList = ((List.range n).map π).map number

namespace HasPenalties

variable {n : ℕ} {π : ℕ → ℚ} {t : Tour Exact}

theorem size_eq (h : HasPenalties n π t) : t.penalties.size = n := by
  rw [← Array.length_toList, h, List.length_map, List.length_map, List.length_range]

theorem penalty_eq (h : HasPenalties n π t) {v : ℕ} (hv : v < n) :
    t.penalties.getD v (Scalar.ofInt 0) = .number (π v) := by
  rw [Array.getD_eq_getD_getElem?, ← Array.getElem?_toList, h]
  simp [hv]

theorem penalisedCost_eq (h : HasPenalties n π t) {a b : ℕ} (ha : a < n) (hb : b < n) :
    t.penalisedCost a b = .number (t.edgeCosts.entry a b 0 + (π a + π b)) := by
  rw [penalisedCost]
  dsimp only
  rw [h.penalty_eq ha, h.penalty_eq hb, ofInt_eq, number_add_number, number_add_number, add_assoc]

/-- A step moves the penalty of a node by its degree. -/
theorem moved (h : HasPenalties n π t) {step : ℚ} (hstep : t.step = .number step)
    (tree : OneTree Exact) :
    (t.movedPenalties tree).toList =
      ((List.range n).map fun v => π v + ((tree.degree v : ℚ) - 2) * step).map number := by
  rw [movedPenalties, Array.toList_mapIdx, h, hstep]
  apply List.ext_getElem
  · simp
  · intro v _ _
    simp

end HasPenalties

/-- The costs that are computed from the penalties of `n` nodes. -/
theorem costs_updateCosts {α : Type} [Scalar α] {n : ℕ} {t : Tour α}
    (hsize : t.penalties.size = n) :
    t.updateCosts.costs.Square n ∧
      ∀ a < n, ∀ b < n, t.updateCosts.costs.cost a b = t.penalisedCost a b := by
  rw [updateCosts, hsize]
  exact ⟨Table.square_ofFn n _, fun a ha b hb => Table.entry_ofFn _ ha hb⟩

/-! ### The state between two iterations -/

/-- The costs, the parameters and the penalties are numbers, and the finders have their sizes. -/
structure Settled (n : ℕ) (c : Sym2 ℕ → ℤ) (o : AscentOptions ℚ) (π : ℕ → ℚ) (t : Tour Exact) :
    Prop where
  options_eq : t.options = o.exact
  edgeCosts_eq : ∀ a < n, ∀ b < n, t.edgeCosts.entry a b 0 = c s(a, b)
  penalties_eq : t.penalties.toList = ((List.range n).map π).map number
  totalPenalty_eq : t.totalPenalty = .number (2 * ((List.range n).map π).sum)
  fast : t.fast.Sized n
  thorough : t.thorough.Sized n

/-- The table of costs is that of the penalised costs. -/
structure Charged (n : ℕ) (c : Sym2 ℕ → ℤ) (o : AscentOptions ℚ) (π : ℕ → ℚ) (t : Tour Exact) :
    Prop extends Settled n c o π t where
  costs : t.costs.Charges n (penalised (fun e => c e) π)

variable {n : ℕ} {c : Sym2 ℕ → ℤ} {o : AscentOptions ℚ} {π : ℕ → ℚ} {t : Tour Exact}

/-- A change to other parts of the state, with finders of the right sizes. -/
theorem Settled.replace {t' : Tour Exact} (ht : Settled n c o π t) (hfast : t'.fast.Sized n)
    (hthorough : t'.thorough.Sized n)
    (hframe : { t' with
      options := t.options
      edgeCosts := t.edgeCosts
      penalties := t.penalties
      totalPenalty := t.totalPenalty } = t') : Settled n c o π t' := by
  rw [← hframe]
  exact ⟨ht.options_eq, ht.edgeCosts_eq, ht.penalties_eq, ht.totalPenalty_eq, hfast, hthorough⟩

theorem Charged.replace {t' : Tour Exact} (ht : Charged n c o π t) (hfast : t'.fast.Sized n)
    (hthorough : t'.thorough.Sized n)
    (hframe : { t' with
      options := t.options
      edgeCosts := t.edgeCosts
      penalties := t.penalties
      totalPenalty := t.totalPenalty } = t') (hcosts : t'.costs = t.costs) :
    Charged n c o π t' :=
  ⟨ht.toSettled.replace hfast hthorough hframe, hcosts ▸ ht.costs⟩

theorem Settled.hasPenalties (ht : Settled n c o π t) : HasPenalties n π t := ht.penalties_eq

theorem Settled.updateCosts (ht : Settled n c o π t) : Charged n c o π t.updateCosts := by
  obtain ⟨hsquare, hcosts⟩ := costs_updateCosts ht.hasPenalties.size_eq
  refine ⟨ht.replace ht.fast ht.thorough rfl, hsquare, fun a ha b hb => ?_⟩
  rw [hcosts a ha b hb, ht.hasPenalties.penalisedCost_eq ha hb, ht.edgeCosts_eq a ha b hb]
  rfl

/-! ### Steps -/

theorem isNumber_squaredViolation (tree : OneTree Exact) (v : ℕ) :
    (squaredViolation tree v).IsNumber :=
  ((isNumber_ofInt _).sub (isNumber_ofInt _)).mul ((isNumber_ofInt _).sub (isNumber_ofInt _))

/-- The length of a step is a number. -/
theorem isNumber_nextStep (hoptions : t.options = o.exact) {bound alpha : Exact}
    (hbound : bound.IsNumber) (halpha : alpha.IsNumber) (upper : ℤ) :
    (t.nextStep bound alpha upper).IsNumber := by
  have htarget : (if (Scalar.ofInt upper : Exact) < bound then bound + t.options.stagnationOffset
      else Scalar.ofInt upper).IsNumber := by
    split
    · rw [hoptions]
      exact hbound.add ⟨_, rfl⟩
    · exact isNumber_ofInt upper
  have hviolations : ∀ tree : OneTree Exact,
      (Scalar.sum ((List.range tree.order).map (squaredViolation tree))).IsNumber := by
    refine fun tree => isNumber_sum fun x hx => ?_
    obtain ⟨v, -, rfl⟩ := List.mem_map.mp hx
    exact isNumber_squaredViolation tree v
  rw [Tour.nextStep]
  dsimp only
  split
  · exact isNumber_ofInt 0
  · split
    · exact isNumber_ofInt 0
    · exact (halpha.mul (htarget.sub hbound)).div (hviolations _)

/-- After a step there are other penalties, and the edges are charged with them. -/
theorem Charged.updatePenalties (ht : Charged n c o π t) (hstep : t.step.IsNumber) :
    ∃ π', Charged n c o π' t.updatePenalties := by
  rw [Tour.updatePenalties]
  split
  · exact ⟨π, ht⟩
  next tree _ =>
    split
    · exact ⟨π, ht⟩
    · obtain ⟨q, hq⟩ := hstep
      have hmoved := ht.hasPenalties.moved hq tree
      refine ⟨fun v => π v + ((tree.degree v : ℚ) - 2) * q, Settled.updateCosts ?_⟩
      refine ⟨ht.options_eq, ht.edgeCosts_eq, hmoved, ?_, ht.fast, ht.thorough⟩
      dsimp only
      rw [hmoved, sum_number]
      rfl

end Tour

end GraphInterval
