/-!
# Bounded repetition

Every loop of the library whose length depends on the data is a step function
repeated under a bound that is computed from the size of that data.  A step
answers `none` when nothing is left to do, so a run that is long enough ends
in a state without a further step.
-/

namespace GraphInterval

/-- Repeats `step` until it answers `none`, at most `bound` times. -/
def iterate {σ : Type} (step : σ → Option σ) : Nat → σ → σ
  | 0, state => state
  | bound + 1, state =>
      match step state with
      | none => state
      | some next => iterate step bound next

variable {σ : Type} {step : σ → Option σ}

/-- A state without a further step stays as it is. -/
theorem iterate_of_eq_none {state : σ} (h : step state = none) :
    ∀ bound, iterate step bound state = state
  | 0 => rfl
  | _ + 1 => by rw [iterate, h]

/-- What every step preserves holds at the end of a run. -/
theorem iterate_preserves {P : σ → Prop}
    (hstep : ∀ state next, P state → step state = some next → P next) :
    ∀ bound state, P state → P (iterate step bound state)
  | 0, _, h => h
  | bound + 1, state, h => by
      unfold iterate
      cases hs : step state with
      | none => exact h
      | some next => exact iterate_preserves hstep bound next (hstep state next h hs)

/-- A run is finished once its bound reaches a measure that every step lowers. -/
theorem step_iterate_eq_none {P : σ → Prop} {m : σ → Nat}
    (hstep : ∀ state next, P state → step state = some next →
      P next ∧ m next < m state) :
    ∀ bound state, P state → m state ≤ bound → step (iterate step bound state) = none
  | 0, state, h, hle => by
      unfold iterate
      cases hs : step state with
      | none => rfl
      | some next =>
          have hless := (hstep state next h hs).2
          omega
  | bound + 1, state, h, hle => by
      unfold iterate
      cases hs : step state with
      | none => exact hs
      | some next =>
          obtain ⟨hnext, hless⟩ := hstep state next h hs
          exact step_iterate_eq_none hstep bound next hnext (by omega)

/-- A run is finished, or it took as many steps as its bound allows. -/
theorem step_iterate_eq_none_or {P : σ → Prop} {m : σ → Nat}
    (hstep : ∀ state next, P state → step state = some next →
      P next ∧ m next = m state + 1) :
    ∀ bound state, P state → step (iterate step bound state) = none ∨
      m (iterate step bound state) = m state + bound
  | 0, _, _ => .inr rfl
  | bound + 1, state, h => by
      unfold iterate
      cases hs : step state with
      | none => exact .inl hs
      | some next =>
          obtain ⟨hnext, hmore⟩ := hstep state next h hs
          refine (step_iterate_eq_none_or hstep bound next hnext).imp_right fun hend => ?_
          exact hend.trans (by omega)

/-- Repeats an effectful step while it answers `true`, at most `bound` times. -/
def repeatWhile {m : Type → Type} [Monad m] (step : m Bool) : Nat → m Unit
  | 0 => pure ()
  | bound + 1 => do
      if ← step then repeatWhile step bound

end GraphInterval
