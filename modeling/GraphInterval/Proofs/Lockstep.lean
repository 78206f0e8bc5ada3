import GraphInterval.Proofs.GraphVar.Reachable
import GraphInterval.Proofs.Propagation
import GraphInterval.Propagation

/-!
# Two runs side by side

An object that is used again starts in another state than a new one.  To show
that this makes no difference, both runs are followed step by step: they take
the same branches, answer the same values, and keep a relation between their
states that says which parts may differ.  The rules follow the way in which
attempts are put together, like those for a single run.
-/

namespace GraphInterval

/-- Two repeated steps that keep a relation end in related states. -/
theorem iterate_lockstep {σ τ : Type} {f : σ → Option σ} {f' : τ → Option τ} {R : σ → τ → Prop}
    (hstep : ∀ s t, R s t → Option.Rel R (f s) (f' t)) (bound : Nat) {s : σ} {t : τ}
    (h : R s t) : R (iterate f bound s) (iterate f' bound t) := by
  induction bound generalizing s t with
  | zero => exact h
  | succ bound ih =>
      have hnext := hstep s t h
      unfold iterate
      cases hs : f s with
      | none =>
          rw [hs] at hnext
          generalize f' t = next at *
          cases hnext
          exact h
      | some s' =>
          rw [hs] at hnext
          generalize f' t = next at *
          cases hnext with
          | some hrel => exact ih hrel

namespace Attempt

variable {σ τ σ' τ' α β : Type}

/-- From two states, the attempts both succeed with one value or both fail for one reason, and end
in states that are related by `Q` or by `E`. -/
def alike (x : Attempt σ α) (y : Attempt τ α) (Q : α → σ → τ → Prop)
    (E : Failure → σ → τ → Prop) (s : σ) (t : τ) : Prop :=
  match x s, y t with
  | .ok a s', .ok b t' => a = b ∧ Q a s' t'
  | .error f s', .error e t' => f = e ∧ E f s' t'
  | .ok _ _, .error _ _ | .error _ _, .ok _ _ => False

/-- How an attempt ends, without its final state. -/
def outcome (x : Attempt σ α) (s : σ) : Except Failure α :=
  match x s with
  | .ok a _ => .ok a
  | .error f _ => .error f

variable {Q R : α → σ → τ → Prop} {E F : Failure → σ → τ → Prop} {s : σ} {t : τ}
variable {x : Attempt σ α} {y : Attempt τ α}

theorem alike_mono (h : x.alike y Q E s t) (hQ : ∀ a s' t', Q a s' t' → R a s' t')
    (hE : ∀ f s' t', E f s' t' → F f s' t') : x.alike y R F s t := by
  unfold alike at *
  cases hx : x s <;> cases hy : y t <;> simp only [hx, hy] at h ⊢
  · exact ⟨h.1, hQ _ _ _ h.2⟩
  · exact ⟨h.1, hE _ _ _ h.2⟩

theorem alike_pure {a : α} (h : Q a s t) : alike (pure a) (pure a) Q E s t := ⟨rfl, h⟩

theorem alike_throw {f : Failure} (h : E f s t) :
    alike (throw f : Attempt σ α) (throw f : Attempt τ α) Q E s t := ⟨rfl, h⟩

theorem alike_bind {f : α → Attempt σ β} {g : α → Attempt τ β} {Q : β → σ → τ → Prop}
    (h : x.alike y (fun a s' t' => (f a).alike (g a) Q E s' t') E s t) :
    (x >>= f).alike (y >>= g) Q E s t := by
  change alike (EStateM.bind x f) (EStateM.bind y g) Q E s t
  unfold alike at h
  cases hx : x s <;> cases hy : y t <;> simp only [hx, hy] at h
  · obtain ⟨rfl, h⟩ := h
    simpa only [alike, EStateM.bind, hx, hy] using h
  · simpa only [alike, EStateM.bind, hx, hy] using h

/-- The second half of a sequence starts where the first one may end. -/
theorem alike_seq {f : α → Attempt σ β} {g : α → Attempt τ β} {Q : β → σ → τ → Prop}
    {R : σ → τ → Prop} (h : x.alike y (fun _ => R) E s t)
    (hnext : ∀ a s' t', R s' t' → (f a).alike (g a) Q E s' t') :
    (x >>= f).alike (y >>= g) Q E s t :=
  alike_bind (alike_mono h hnext fun _ _ _ hE => hE)

/-- What is read differs as the states do. -/
theorem alike_get_bind {f : σ → Attempt σ β} {g : τ → Attempt τ β} {Q : β → σ → τ → Prop}
    (h : (f s).alike (g t) Q E s t) : (get >>= f).alike (get >>= g) Q E s t := h

theorem alike_modify {f : σ → σ} {g : τ → τ} {Q : PUnit → σ → τ → Prop}
    (h : Q ⟨⟩ (f s) (g t)) : alike (modify f) (modify g) Q E s t := ⟨rfl, h⟩

theorem alike_set {s' : σ} {t' : τ} {Q : PUnit → σ → τ → Prop} (h : Q ⟨⟩ s' t') :
    alike (set s') (set t') Q E s t := ⟨rfl, h⟩

theorem alike_ite {c d : Prop} [Decidable c] [Decidable d] {x' : Attempt σ α} {y' : Attempt τ α}
    (hcd : c ↔ d) (h : d → x.alike y Q E s t) (h' : ¬ d → x'.alike y' Q E s t) :
    (if c then x else x').alike (if d then y else y') Q E s t := by
  by_cases hd : d
  · rw [if_pos hd, if_pos (hcd.mpr hd)]
    exact h hd
  · rw [if_neg hd, if_neg fun hc => hd (hcd.mp hc)]
    exact h' hd

/-- One state that both runs have reached. -/
def Shared (P : σ → Prop) (s t : σ) : Prop := s = t ∧ P s

/-- Beside itself, an attempt keeps what it guarantees. -/
theorem alike_self {Q : α → σ → Prop} {E : Failure → σ → Prop} (h : x.wp Q E s) :
    x.alike x (fun a => Shared (Q a)) (fun f => Shared (E f)) s s := by
  unfold alike
  cases hx : x s with
  | ok a s' => exact ⟨rfl, rfl, of_wp_ok h hx⟩
  | error f s' => exact ⟨rfl, rfl, of_wp_error h hx⟩

/-- Attempts that reach the same states are equal there, and guarantee what is known of them. -/
theorem eq_and_wp_of_alike {y : Attempt σ α} {t : σ} {Q : α → σ → Prop} {E : Failure → σ → Prop}
    (h : x.alike y (fun a => Shared (Q a)) (fun f => Shared (E f)) s t) :
    x s = y t ∧ x.wp Q E s := by
  unfold alike at h
  unfold wp
  cases hx : x s <;> cases hy : y t <;> simp only [hx, hy] at h ⊢
  · obtain ⟨rfl, rfl, h⟩ := h
    exact ⟨rfl, h⟩
  · obtain ⟨rfl, rfl, h⟩ := h
    exact ⟨rfl, h⟩

/-- One attempt on equal parts of the states. -/
theorem alike_within {ρ : Type} {part : σ → ρ} {update : σ → ρ → σ} {part' : τ → ρ}
    {update' : τ → ρ → τ} (z : Attempt ρ α) (hpart : part s = part' t)
    (hQ : ∀ a r, Q a (update s r) (update' t r)) (hE : ∀ f r, E f (update s r) (update' t r)) :
    (within part update z).alike (within part' update' z) Q E s t := by
  unfold alike within
  rw [hpart]
  cases z (part' t) with
  | ok a r => exact ⟨rfl, hQ a r⟩
  | error f r => exact ⟨rfl, hE f r⟩

theorem alike_ensuring {finish : σ → σ} {finish' : τ → τ}
    (h : x.alike y (fun a s' t' => Q a (finish s') (finish' t'))
      (fun f s' t' => E f (finish s') (finish' t')) s t) :
    (x.ensuring finish).alike (y.ensuring finish') Q E s t := by
  unfold alike ensuring at *
  cases hx : x s <;> cases hy : y t <;> simp only [hx, hy] at h ⊢
  · exact h
  · exact h

/-- Loops over one list whose turns keep a relation. -/
theorem alike_forM {f : β → Attempt σ PUnit} {g : β → Attempt τ PUnit} {R : σ → τ → Prop}
    {l : List β} (hstep : ∀ b ∈ l, ∀ s t, R s t →
      (f b).alike (g b) (fun _ => R) E s t) (h : R s t) :
    (l.forM f).alike (l.forM g) (fun _ => R) E s t := by
  induction l generalizing s t with
  | nil => exact alike_pure h
  | cons b l ih =>
      refine alike_seq (hstep b List.mem_cons_self s t h) fun _ s' t' h' => ?_
      exact ih (fun c hc => hstep c (List.mem_cons_of_mem b hc)) h'

theorem alike_repeatWhile {step : Attempt σ Bool} {step' : Attempt τ Bool} {R : σ → τ → Prop}
    (hstep : ∀ s t, R s t → step.alike step' (fun _ => R) E s t) (bound : Nat) (h : R s t) :
    (repeatWhile step bound).alike (repeatWhile step' bound) (fun _ => R) E s t := by
  induction bound generalizing s t with
  | zero => exact alike_pure h
  | succ bound ih =>
      refine alike_seq (hstep s t h) fun again s' t' h' => ?_
      cases again with
      | true => exact ih h'
      | false => exact alike_pure h'

theorem outcome_within {ρ : Type} {part : σ → ρ} {update : σ → ρ → σ} (z : Attempt ρ α) (s : σ) :
    (within part update z).outcome s = z.outcome (part s) := by
  simp only [outcome, within]
  cases z (part s) <;> rfl

theorem after_within {ρ : Type} {part : σ → ρ} {update : σ → ρ → σ} (z : Attempt ρ α) (s : σ) :
    (within part update z).after s = update s (z.after (part s)) := by
  simp only [after, within]
  cases z (part s) <;> rfl

/-- Runs of the attempt from related states are alike and keep the relation. -/
def Respects (R : σ → σ → Prop) (x : Attempt σ α) : Prop :=
  ∀ s t, R s t → x.alike x (fun _ => R) (fun _ => R) s t

/-- Two runs are alike if they have one outcome and end in states that are related as it says. -/
theorem alike_iff : x.alike y Q E s t ↔ x.outcome s = y.outcome t ∧
    (∀ a, x.outcome s = .ok a → Q a (x.after s) (y.after t)) ∧
    ∀ f, x.outcome s = .error f → E f (x.after s) (y.after t) := by
  unfold alike outcome after
  cases x s <;> cases y t <;> simp

theorem Respects.after {R : σ → σ → Prop} {x : Attempt σ α} (h : x.Respects R) {s t : σ}
    (hst : R s t) : R (x.after s) (x.after t) := by
  obtain ⟨-, hok, herror⟩ := alike_iff.mp (h s t hst)
  cases hx : x.outcome s with
  | ok a => exact hok a hx
  | error f => exact herror f hx

/-- What a caller may look at when an attempt has ended: its outcome, and then a view of the state.
A fault leaves nothing behind that can be relied on. -/
def reported {ω : Type} (x : Attempt σ α) (view : σ → ω) (s : σ) : Except Failure α × Option ω :=
  match x s with
  | .ok a s' => (.ok a, some (view s'))
  | .error (.fault cause) _ => (.error (.fault cause), none)
  | .error f s' => (.error f, some (view s'))

theorem reported_eq {ω : Type} {view : σ → ω} {view' : τ → ω}
    (h : x.alike y (fun _ s' t' => view s' = view' t')
      (fun f s' t' => (∀ cause, f ≠ .fault cause) → view s' = view' t') s t) :
    x.reported view s = y.reported view' t := by
  unfold alike at h
  unfold reported
  cases hx : x s <;> cases hy : y t <;> simp only [hx, hy] at h
  · obtain ⟨rfl, h⟩ := h
    simp only [h]
  next f s' e t' =>
    obtain ⟨rfl, h⟩ := h
    cases f with
    | fault cause => rfl
    | wipeout => simp only [h (by simp)]
    | conflict detector => simp only [h (by simp)]

end Attempt

namespace Posted

variable {π ρ δ α β : Type}

/-- Equal domains, and propagators that are related. -/
structure Same (P : π → ρ → Prop) (s : Posted π δ) (t : Posted ρ δ) : Prop where
  domains : s.domains = t.domains
  propagator : P s.propagator t.propagator

variable {P : π → ρ → Prop} {s : Posted π δ} {t : Posted ρ δ}

/-- A computation on the domains does not see the propagators. -/
theorem alike_onDomains (attempt : Attempt δ α) (h : s.Same P t) :
    (onDomains attempt).alike (onDomains attempt) (fun _ => Same P) (fun _ => Same P) s t :=
  Attempt.alike_within attempt h.domains (fun _ _ => ⟨rfl, h.propagator⟩)
    fun _ _ => ⟨rfl, h.propagator⟩

theorem alike_update {f : π → π} {g : ρ → ρ} {R : π → ρ → Prop}
    {E : Failure → Posted π δ → Posted ρ δ → Prop} (h : s.Same P t)
    (hfg : P s.propagator t.propagator → R (f s.propagator) (g t.propagator)) :
    (update f).alike (update g) (fun _ => Same R) E s t :=
  Attempt.alike_modify ⟨h.domains, hfg h.propagator⟩

/-- Runs are alike although their buffers hold different lists: both go through the list of the
domains. -/
theorem respects_visitEach {P : π → π → Prop} {buffer : Buffer π β} {listed : δ → List β}
    {visit : β → Attempt (Posted π δ) Unit}
    (hstore : ∀ p q l, P p q → P (buffer.store p l) (buffer.store q l))
    (hvisit : ∀ b, Attempt.Respects (Same P) (visit b)) :
    Attempt.Respects (Same P) (visitEach buffer listed visit) := by
  intro s t h
  unfold Attempt.alike
  rw [visitEach_eq, visitEach_eq, h.domains]
  have hfilled : Same P (s.holding buffer (listed t.domains))
      (t.holding buffer (listed t.domains)) := ⟨h.domains, hstore _ _ _ h.propagator⟩
  exact Attempt.alike_forM (fun b _ => hvisit b) hfilled

/-- What a caller sees of a propagation: how it ends, and the domains with their events. -/
def observed (x : Attempt (Posted π δ) α) (s : Posted π δ) : Except Failure α × δ :=
  (x.outcome s, (x.after s).domains)

theorem observed_eq {x : Attempt (Posted π δ) α} {y : Attempt (Posted ρ δ) α}
    (h : x.alike y (fun _ => Same P) (fun _ => Same P) s t) : observed x s = observed y t := by
  obtain ⟨houtcome, hok, herror⟩ := Attempt.alike_iff.mp h
  refine Prod.ext houtcome ?_
  cases hx : x.outcome s with
  | ok a => exact (hok a hx).domains
  | error f => exact (herror f hx).domains

theorem after_wrapped (wrap : ρ → π) (x : Attempt (Posted ρ δ) Unit) (inner : ρ)
    (s : Posted π δ) : (wrapped wrap x inner).after s =
      ⟨wrap (x.after ⟨inner, s.domains⟩).propagator, (x.after ⟨inner, s.domains⟩).domains⟩ :=
  Attempt.after_within x s

/-- A caller does not see that a propagator is wrapped. -/
theorem observed_wrapped (wrap : ρ → π) (x : Attempt (Posted ρ δ) Unit) (inner : ρ)
    (s : Posted π δ) : observed (wrapped wrap x inner) s = observed x ⟨inner, s.domains⟩ :=
  Prod.ext (Attempt.outcome_within x s) (congrArg Posted.domains (after_wrapped wrap x inner s))

/-- Two propagations that a caller cannot tell apart stay so when they are wrapped. -/
theorem observed_wrapped_congr (wrap : ρ → π) (x : Attempt (Posted ρ δ) Unit) {p q : ρ} {d : δ}
    (h : observed x ⟨p, d⟩ = observed x ⟨q, d⟩) :
    observed (wrapped wrap x p) ⟨wrap p, d⟩ = observed (wrapped wrap x q) ⟨wrap q, d⟩ := by
  rw [observed_wrapped, observed_wrapped]
  exact h

end Posted

end GraphInterval
