import Mathlib.Data.Nat.Init
import Mathlib.Logic.Function.Basic

/-!
# Chains of pointers

Every element points to another one or to itself, and a chain of pointers ends
where an element points to itself.  Two changes of the pointers matter: path
halving lets an element skip the next one and keeps all ends, and redirecting
an end passes all chains to it on to the end of another chain.
-/

namespace GraphInterval

/-- The chain of pointers from an element ends at another one. -/
inductive Leads (up : ℕ → ℕ) : ℕ → ℕ → Prop where
  | stop {x : ℕ} : up x = x → Leads up x x
  | step {x r : ℕ} : up x ≠ x → Leads up (up x) r → Leads up x r

/-- Every pointer to another element lowers a measure. -/
def Descends (up μ : ℕ → ℕ) : Prop := ∀ x, up x ≠ x → μ (up x) < μ x

variable {up μ : ℕ → ℕ} {x y r s t : ℕ}

namespace Leads

theorem isEnd (h : Leads up x r) : up r = r := by
  induction h with
  | stop h => exact h
  | step _ _ ih => exact ih

theorem unique (hr : Leads up x r) (hs : Leads up x s) : r = s := by
  induction hr with
  | stop h =>
      cases hs with
      | stop _ => rfl
      | step hne _ => exact absurd h hne
  | step hne _ ih =>
      cases hs with
      | stop h => exact absurd h hne
      | step _ hs => exact ih hs

theorem self_iff : Leads up x x ↔ up x = x := ⟨isEnd, stop⟩

theorem eq_of_isEnd (h : Leads up x r) (hx : up x = x) : r = x := h.unique (stop hx)

theorem of_step (h : Leads up x r) : Leads up (up x) r := by
  cases h with
  | stop h =>
      rw [h]
      exact stop h
  | step _ h => exact h

theorem cons (h : Leads up (up x) r) : Leads up x r := by
  by_cases hx : up x = x
  · rwa [hx] at h
  · exact step hx h

theorem exists_end (hμ : Descends up μ) (x : ℕ) : ∃ r, Leads up x r := by
  induction hx : μ x using Nat.strong_induction_on generalizing x with
  | h n ih =>
      by_cases hend : up x = x
      · exact ⟨x, stop hend⟩
      · obtain ⟨r, hr⟩ := ih (μ (up x)) (hx ▸ hμ x hend) (up x) rfl
        exact ⟨r, step hend hr⟩

/-- An element that skips the next one leaves all ends as they are. -/
theorem halve (hμ : Descends up μ) (hx : up x ≠ x) (h : Leads up y r) :
    Leads (Function.update up x (up (up x))) y r := by
  have hother : ∀ {z}, z ≠ x → Function.update up x (up (up x)) z = up z := fun hz =>
    Function.update_of_ne hz _ _
  have hskip : Function.update up x (up (up x)) x = up (up x) := Function.update_self _ _ _
  have hback : up (up x) ≠ x := by
    intro heq
    by_cases hend : up (up x) = up x
    · exact hx (hend.symm.trans heq)
    · have hless := hμ (up x) hend
      have hless' := hμ x hx
      rw [heq] at hless
      omega
  induction h with
  | @stop z hz =>
      have hzx : z ≠ x := fun heq => hx (heq ▸ hz)
      exact stop ((hother hzx).trans hz)
  | @step z r hz _ ih =>
      by_cases hzx : z = x
      · subst hzx
        have hnext := ih.of_step
        rw [hother hz] at hnext
        apply cons
        rwa [hskip]
      · apply cons
        rwa [hother hzx]

theorem halve_iff (hμ : Descends up μ) (hx : up x ≠ x) :
    Leads (Function.update up x (up (up x))) y r ↔ Leads up y r := by
  constructor
  · intro h
    obtain ⟨s, hs⟩ := exists_end hμ y
    exact h.unique (hs.halve hμ hx) ▸ hs
  · exact halve hμ hx

/-- Chains that end elsewhere do not notice that an end is redirected. -/
theorem redirect_of_ne (hr : up r = r) (h : Leads up y t) (htr : t ≠ r) :
    Leads (Function.update up r s) y t := by
  induction h with
  | stop hz => exact stop ((Function.update_of_ne htr _ _).trans hz)
  | @step z t hz _ ih =>
      have hzr : z ≠ r := fun heq => hz (heq ▸ hr)
      apply cons
      rw [Function.update_of_ne hzr]
      exact ih htr

/-- Chains to an end that is redirected go on from there. -/
theorem redirect (hr : up r = r) (h : Leads up y r) (hs : Leads (Function.update up r s) s t) :
    Leads (Function.update up r s) y t := by
  have hgo : ∀ {z q}, Leads up z q → q = r → Leads (Function.update up r s) z t := by
    intro z q hz
    induction hz with
    | @stop z _ =>
        rintro rfl
        apply cons
        rwa [Function.update_self]
    | @step z q hz _ ih =>
        intro hq
        have hzr : z ≠ r := fun heq => hz (heq ▸ hr)
        apply cons
        rw [Function.update_of_ne hzr]
        exact ih hq
  exact hgo h rfl

end Leads

theorem Descends.halve (hμ : Descends up μ) (x : ℕ) :
    Descends (Function.update up x (up (up x))) μ := by
  intro z hz
  by_cases hzx : z = x
  · subst hzx
    rw [Function.update_self] at hz ⊢
    by_cases hend : up z = z
    · rw [hend] at hz
      exact absurd hend hz
    · by_cases hend' : up (up z) = up z
      · rw [hend']
        exact hμ z hend
      · exact Nat.lt_trans (hμ _ hend') (hμ z hend)
  · rw [Function.update_of_ne hzx] at hz ⊢
    exact hμ z hz

end GraphInterval
