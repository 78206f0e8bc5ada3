import GraphInterval.Fault
import GraphInterval.Iterate
import Mathlib.Computability.StateTransition

/-!
# Runs

Two ways of running a data structure recur.  A loop of the library is a step
function that is repeated under a bound; once it is finished, it did what the
loop without a bound does.  A history is a list of operations that are
performed one after the other; it follows a specification if every operation
does.
-/

namespace GraphInterval

section Loops

variable {σ : Type} {step : σ → Option σ}

theorem reaches_iterate (bound : ℕ) (s : σ) :
    StateTransition.Reaches step s (iterate step bound s) := by
  induction bound generalizing s with
  | zero => exact .refl
  | succ bound ih =>
      unfold iterate
      cases hs : step s with
      | none => exact .refl
      | some next => exact .head hs (ih next)

/-- A finished loop is in the state in which the loop without a bound ends. -/
theorem iterate_mem_eval {bound : ℕ} {s : σ} (hfinished : step (iterate step bound s) = none) :
    iterate step bound s ∈ StateTransition.eval step s :=
  StateTransition.mem_eval.mpr ⟨reaches_iterate bound s, hfinished⟩

end Loops

section Histories

variable {σ τ ω α : Type} {perform : σ → ω → Except Fault (α × σ)}
variable {step : τ → ω → α → τ → Prop} {R : τ → σ → Prop}

/-- Performs operations one after the other, and lists their answers. -/
def performEach (perform : σ → ω → Except Fault (α × σ)) (s : σ) :
    List ω → Except Fault (List α × σ)
  | [] => return ([], s)
  | operation :: operations => do
      let (answer, s) ← perform s operation
      let (answers, s) ← performEach perform s operations
      return (answer :: answers, s)

theorem performEach_cons {s s₁ s₂ : σ} {operation : ω} {operations : List ω} {answer : α}
    {answers : List α} (hrun : perform s operation = .ok (answer, s₁))
    (hruns : performEach perform s₁ operations = .ok (answers, s₂)) :
    performEach perform s (operation :: operations) = .ok (answer :: answers, s₂) := by
  rw [performEach, hrun]
  dsimp only [bind, Except.bind]
  rw [hruns]
  rfl

/-- The histories of a specification, with their answers and the state in the end. -/
inductive Traces (step : τ → ω → α → τ → Prop) : τ → List ω → List α → τ → Prop where
  | nil {m : τ} : Traces step m [] [] m
  | cons {m m₁ m₂ : τ} {operation : ω} {operations : List ω} {answer : α} {answers : List α} :
      step m operation answer m₁ → Traces step m₁ operations answers m₂ →
      Traces step m (operation :: operations) (answer :: answers) m₂

/-- The histories of the operations themselves are their runs. -/
theorem performEach_of_traces {s s' : σ} {operations : List ω} {answers : List α}
    (h : Traces (fun s operation answer s' => perform s operation = .ok (answer, s')) s operations
      answers s') :
    performEach perform s operations = .ok (answers, s') := by
  induction h with
  | nil => rfl
  | cons hrun _ ih => exact performEach_cons hrun ih

variable (step R) in
/-- If every operation that is allowed succeeds and takes a step of the specification, so does a
history in which each one is allowed when it is performed. -/
theorem performEach_traces_of_allowed {A : τ → List ω → Prop}
    (hperform : ∀ {m s operation operations}, R m s → A m (operation :: operations) →
      ∃ answer s' m', perform s operation = .ok (answer, s') ∧ step m operation answer m' ∧
        R m' s' ∧ A m' operations)
    {m : τ} {s : σ} (h : R m s) (operations : List ω) (hallowed : A m operations) :
    ∃ answers s' m', performEach perform s operations = .ok (answers, s') ∧
      Traces step m operations answers m' ∧ R m' s' := by
  induction operations generalizing m s with
  | nil => exact ⟨[], s, m, rfl, .nil, h⟩
  | cons operation operations ih =>
      obtain ⟨answer, s₁, m₁, hrun, hstep, h₁, hallowed₁⟩ := hperform h hallowed
      obtain ⟨answers, s₂, m₂, hruns, hsteps, h₂⟩ := ih h₁ hallowed₁
      have hall : performEach perform s (operation :: operations) =
          .ok (answer :: answers, s₂) := performEach_cons hrun hruns
      exact ⟨answer :: answers, s₂, m₂, hall, .cons hstep hsteps, h₂⟩

variable (step R) in
/-- If every operation succeeds and takes a step of the specification, so does a history. -/
theorem performEach_traces {P : ω → Prop}
    (hperform : ∀ {m s operation}, R m s → P operation → ∃ answer s' m',
      perform s operation = .ok (answer, s') ∧ step m operation answer m' ∧ R m' s')
    {m : τ} {s : σ} (h : R m s) (operations : List ω)
    (hops : ∀ operation ∈ operations, P operation) :
    ∃ answers s' m', performEach perform s operations = .ok (answers, s') ∧
      Traces step m operations answers m' ∧ R m' s' := by
  apply performEach_traces_of_allowed step R (A := fun _ operations =>
    ∀ operation ∈ operations, P operation) _ h operations hops
  intro m s operation operations h hops
  obtain ⟨hop, hops⟩ := List.forall_mem_cons.mp hops
  obtain ⟨answer, s', m', hrun, hstep, h'⟩ := hperform h hop
  exact ⟨answer, s', m', hrun, hstep, h', hops⟩

end Histories

end GraphInterval
