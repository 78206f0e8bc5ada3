import GraphInterval.Fault
import GraphInterval.Iterate

/-!
# Reasoning about attempts

What an attempt guarantees is stated by one condition on its value and final
state and one on its failure and final state.  The rules below follow the way
in which attempts are put together, so a proof about a computation has the
shape of the computation.
-/

namespace GraphInterval

namespace Attempt

variable {σ τ α β : Type}

/-- From a state, the attempt succeeds with `Q` or fails with `E`. -/
def wp (x : Attempt σ α) (Q : α → σ → Prop) (E : Failure → σ → Prop) (s : σ) : Prop :=
  match x s with
  | .ok a s' => Q a s'
  | .error f s' => E f s'

variable {Q R : α → σ → Prop} {E F : Failure → σ → Prop} {s : σ}

theorem wp_mono {x : Attempt σ α} (h : x.wp Q E s) (hQ : ∀ a s', Q a s' → R a s')
    (hE : ∀ f s', E f s' → F f s') : x.wp R F s := by
  unfold wp at *
  cases hx : x s with
  | ok a s' => exact hQ a s' (by simpa [hx] using h)
  | error f s' => exact hE f s' (by simpa [hx] using h)

/-- Two guarantees of one attempt hold together. -/
theorem wp_and {x : Attempt σ α} (h : x.wp Q E s) (h' : x.wp R F s) :
    x.wp (fun a s' => Q a s' ∧ R a s') (fun f s' => E f s' ∧ F f s') s := by
  unfold wp at *
  cases hx : x s with
  | ok a s' => exact ⟨by simpa [hx] using h, by simpa [hx] using h'⟩
  | error f s' => exact ⟨by simpa [hx] using h, by simpa [hx] using h'⟩

/-- An attempt always ends. -/
theorem wp_trivial (x : Attempt σ α) (s : σ) :
    x.wp (fun _ _ => True) (fun _ _ => True) s := by
  unfold wp
  split <;> trivial

theorem of_wp_ok {x : Attempt σ α} {a : α} {s' : σ} (h : x.wp Q E s)
    (hx : x s = .ok a s') : Q a s' := by
  simpa [wp, hx] using h

theorem of_wp_error {x : Attempt σ α} {f : Failure} {s' : σ} (h : x.wp Q E s)
    (hx : x s = .error f s') : E f s' := by
  simpa [wp, hx] using h

theorem wp_of_ok {x : Attempt σ α} {a : α} {s' : σ} (hx : x s = .ok a s') (h : Q a s') :
    x.wp Q E s := by
  simpa [wp, hx] using h

/-- Whether an attempt succeeds with a value and a state that pass a test. -/
def passes (x : Attempt σ α) (test : α → σ → Bool) (s : σ) : Bool :=
  match x s with
  | .ok a s' => test a s'
  | .error _ _ => false

theorem passes_iff {x : Attempt σ α} {test : α → σ → Bool} :
    x.passes test s = true ↔ ∃ a s', x s = .ok a s' ∧ test a s' = true := by
  unfold passes
  constructor
  · intro h
    split at h
    next a s' hx => exact ⟨a, s', hx, h⟩
    next => cases h
  · rintro ⟨a, s', hx, h⟩
    rw [hx]
    exact h

/-- Whether an attempt fails for this reason. -/
def failsWith (x : Attempt σ α) (failure : Failure) (s : σ) : Bool :=
  match x s with
  | .ok _ _ => false
  | .error f _ => decide (f = failure)

theorem failsWith_iff {x : Attempt σ α} {failure : Failure} :
    x.failsWith failure s = true ↔ ∃ s', x s = .error failure s' := by
  unfold failsWith
  constructor
  · intro h
    split at h
    next => cases h
    next f s' hx => exact ⟨s', by rw [hx, of_decide_eq_true h]⟩
  · rintro ⟨s', hx⟩
    rw [hx]
    exact decide_eq_true rfl

/-- The state in which an attempt ends, whether it succeeds or not. -/
def after (x : Attempt σ α) (s : σ) : σ :=
  match x s with
  | .ok _ s' => s'
  | .error _ s' => s'

theorem after_of_wp {x : Attempt σ α} {P : σ → Prop} (h : x.wp (fun _ => P) (fun _ => P) s) :
    P (x.after s) := by
  unfold wp at h
  unfold after
  split <;> simpa [*] using h

theorem after_of_ok {x : Attempt σ α} {s s' : σ} {a : α} (h : x s = .ok a s') :
    x.after s = s' := by
  rw [after, h]

theorem bind_eq_of_ok {x : Attempt σ α} {f : α → Attempt σ β} {a : α} {s' : σ}
    (hx : x s = .ok a s') : (x >>= f) s = f a s' := by
  change EStateM.bind x f s = _
  simp only [EStateM.bind, hx]

theorem bind_eq_of_error {x : Attempt σ α} {f : α → Attempt σ β} {failure : Failure} {s' : σ}
    (hx : x s = .error failure s') : (x >>= f) s = .error failure s' := by
  change EStateM.bind x f s = _
  simp only [EStateM.bind, hx]

/-- An attempt that fails for one reason, and exactly if some condition does not hold. -/
theorem exists_error_iff {x : Attempt σ α} {failure : Failure} {P : Prop}
    (h : x.wp (fun _ _ => P) (fun f _ => f = failure ∧ ¬ P) s) :
    (∃ s', x s = .error failure s') ↔ ¬ P := by
  constructor
  · rintro ⟨s', hx⟩
    exact (of_wp_error h hx).2
  · intro hP
    cases hx : x s with
    | ok a s' => exact absurd (of_wp_ok h hx) hP
    | error f s' => exact ⟨s', by rw [(of_wp_error h hx).1]⟩

/-- An attempt that cannot fail succeeds. -/
theorem exists_ok {x : Attempt σ α} (h : x.wp Q (fun _ _ => False) s) :
    ∃ a s', x s = .ok a s' ∧ Q a s' := by
  unfold wp at h
  cases hx : x s with
  | ok a s' => exact ⟨a, s', rfl, by simpa [hx] using h⟩
  | error f s' => exact absurd h (by simp [hx])

@[simp]
theorem wp_pure (a : α) : wp (pure a) Q E s ↔ Q a s := Iff.rfl

@[simp]
theorem wp_throw (f : Failure) : wp (throw f : Attempt σ α) Q E s ↔ E f s := Iff.rfl

@[simp]
theorem wp_get {Q : σ → σ → Prop} : wp (get : Attempt σ σ) Q E s ↔ Q s s := Iff.rfl

@[simp]
theorem wp_set {Q : PUnit → σ → Prop} (t : σ) :
    wp (set t : Attempt σ PUnit) Q E s ↔ Q ⟨⟩ t := Iff.rfl

@[simp]
theorem wp_modify {Q : PUnit → σ → Prop} (f : σ → σ) :
    wp (modify f : Attempt σ PUnit) Q E s ↔ Q ⟨⟩ (f s) := Iff.rfl

@[simp]
theorem wp_bind (x : Attempt σ α) (f : α → Attempt σ β) {Q : β → σ → Prop} :
    wp (x >>= f) Q E s ↔ x.wp (fun a s' => (f a).wp Q E s') E s := by
  change wp (EStateM.bind x f) Q E s ↔ _
  simp only [wp, EStateM.bind]
  cases x s <;> rfl

@[simp]
theorem wp_map (x : Attempt σ α) (f : α → β) {Q : β → σ → Prop} :
    wp (f <$> x) Q E s ↔ x.wp (fun a s' => Q (f a) s') E s := by
  change wp (EStateM.map f x) Q E s ↔ _
  simp only [wp, EStateM.map]
  cases x s <;> rfl

@[simp]
theorem wp_discard (x : Attempt σ α) {Q : PUnit → σ → Prop} :
    wp (discard x) Q E s ↔ x.wp (fun _ s' => Q ⟨⟩ s') E s := by
  change wp (EStateM.map _ x) Q E s ↔ _
  simp only [wp, EStateM.map]
  cases x s <;> rfl

@[simp]
theorem wp_ite {c : Prop} [Decidable c] (x y : Attempt σ α) :
    wp (if c then x else y) Q E s ↔ (c → x.wp Q E s) ∧ (¬ c → y.wp Q E s) := by
  split <;> simp [*]

@[simp]
theorem wp_within {part : σ → τ} {update : σ → τ → σ} (x : Attempt τ α) :
    wp (within part update x) Q E s ↔
      x.wp (fun a t => Q a (update s t)) (fun f t => E f (update s t)) (part s) := by
  simp only [wp, within]
  cases x (part s) <;> rfl

@[simp]
theorem wp_ensuring (x : Attempt σ α) (finish : σ → σ) :
    wp (x.ensuring finish) Q E s ↔
      x.wp (fun a t => Q a (finish t)) (fun f t => E f (finish t)) s := by
  simp only [wp, ensuring]
  cases x s <;> rfl

/-- A loop over a list keeps an invariant that knows the rest of the list. -/
theorem wp_forM {f : β → Attempt σ PUnit} {I : List β → σ → Prop}
    (hstep : ∀ b rest s, I (b :: rest) s → (f b).wp (fun _ s' => I rest s') E s)
    (l : List β) {s : σ} (h : I l s) : (l.forM f).wp (fun _ s' => I [] s') E s := by
  induction l generalizing s with
  | nil => exact h
  | cons b rest ih =>
      change wp (f b >>= fun _ => rest.forM f) _ _ _
      rw [wp_bind]
      exact wp_mono (hstep b rest s h) (fun _ s' hs' => ih hs') fun _ _ hE => hE

/-- A loop does for every element of its list what the turn of the element does, if the other turns
keep it. -/
theorem wp_forM_each {f : β → Attempt σ PUnit} {I : σ → Prop} {D : β → σ → Prop} {l : List β}
    (hstep : ∀ b ∈ l, ∀ s, I s →
      (f b).wp (fun _ s' => I s' ∧ D b s' ∧ ∀ c ∈ l, D c s → D c s') E s)
    {s : σ} (h : I s) : (l.forM f).wp (fun _ s' => I s' ∧ ∀ b ∈ l, D b s') E s := by
  refine wp_mono (wp_forM
    (I := fun rest s => I s ∧ (∀ b ∈ rest, b ∈ l) ∧ ∀ b ∈ l, D b s ∨ b ∈ rest)
    (fun b rest s hs => ?_) l ⟨h, fun _ hb => hb, fun _ hb => .inr hb⟩) ?_ fun _ _ hE => hE
  · obtain ⟨hI, hrest, hdone⟩ := hs
    refine wp_mono (hstep b (hrest b List.mem_cons_self) s hI) ?_ fun _ _ hE => hE
    rintro _ s' ⟨hI', hb, hkeep⟩
    refine ⟨hI', fun c hc => hrest c (List.mem_cons_of_mem b hc), fun c hc => ?_⟩
    obtain hc' | hc' := hdone c hc
    · exact .inl (hkeep c hc hc')
    · obtain rfl | hc' := List.mem_cons.mp hc'
      · exact .inl hb
      · exact .inr hc'
  · rintro _ s' ⟨hI', -, hdone⟩
    exact ⟨hI', fun b hb => (hdone b hb).resolve_right List.not_mem_nil⟩

/-- A loop keeps what the turns of the elements of its list keep. -/
theorem wp_forM_keep {f : β → Attempt σ PUnit} {I : σ → Prop} {l : List β}
    (hstep : ∀ b ∈ l, ∀ s, I s → (f b).wp (fun _ s' => I s') E s)
    {s : σ} (h : I s) : (l.forM f).wp (fun _ s' => I s') E s :=
  wp_mono (wp_forM_each (D := fun _ _ => True)
    (fun b hb s hs => wp_mono (hstep b hb s hs)
      (fun _ _ hs' => ⟨hs', trivial, fun _ _ _ => trivial⟩) fun _ _ hE => hE) h)
    (fun _ _ hs' => hs'.1) fun _ _ hE => hE

/-- A bounded loop keeps the invariant of its steps.  It is finished at the end
if every step that asks for another one lowers a measure that starts at most at
the bound. -/
theorem wp_repeatWhile {step : Attempt σ Bool} {I : σ → Prop} {m : σ → Nat}
    {R : σ → Prop}
    (hstep : ∀ s, I s → step.wp
      (fun again s' => if again = true then I s' ∧ m s' < m s else R s') E s)
    (hlast : ∀ s, I s → m s = 0 → R s) (bound : Nat) {s : σ} (h : I s)
    (hbound : m s ≤ bound) : (repeatWhile step bound).wp (fun _ s' => R s') E s := by
  induction bound generalizing s with
  | zero => exact hlast s h (Nat.le_zero.mp hbound)
  | succ bound ih =>
      rw [repeatWhile, wp_bind]
      refine wp_mono (hstep s h) (fun again s' hs' => ?_) fun _ _ hE => hE
      cases again with
      | true =>
          simp only [if_true] at hs' ⊢
          exact ih hs'.1 (by omega)
      | false => simpa using hs'

/-- A bounded loop keeps what each of its steps keeps. -/
theorem wp_repeatWhile_of_step {step : Attempt σ Bool} {I : σ → Prop}
    (hstep : ∀ s, I s → step.wp (fun _ s' => I s') E s) (bound : Nat) {s : σ} (h : I s) :
    (repeatWhile step bound).wp (fun _ s' => I s') E s := by
  induction bound generalizing s with
  | zero => exact h
  | succ bound ih =>
      rw [repeatWhile, wp_bind]
      refine wp_mono (hstep s h) (fun again s' hs' => ?_) fun _ _ hE => hE
      cases again with
      | true => exact ih hs'
      | false => exact hs'

/-- What the first step of a bounded loop brings about, the further steps have to keep. -/
theorem wp_repeatWhile_of_first {step : Attempt σ Bool} {I : σ → Prop} {s : σ}
    (hfirst : step.wp (fun _ s' => I s') E s)
    (hstep : ∀ s, I s → step.wp (fun _ s' => I s') E s) (bound : Nat) :
    (repeatWhile step (bound + 1)).wp (fun _ s' => I s') E s := by
  rw [repeatWhile, wp_bind]
  refine wp_mono hfirst (fun again s' hs' => ?_) fun _ _ hE => hE
  cases again with
  | true => exact wp_repeatWhile_of_step hstep bound hs'
  | false => exact hs'

/-! ### Invariants -/

section Keeps

variable {I : σ → Prop}

/-- The attempt keeps an invariant, and fails only in the way `E`. -/
def Keeps (I : σ → Prop) (E : Failure → σ → Prop) (x : Attempt σ α) : Prop :=
  ∀ s, I s → x.wp (fun _ s' => I s') E s

theorem keeps_pure (a : α) : Keeps I E (pure a) := fun _ hs => hs

theorem keeps_get : Keeps I E get := fun _ hs => hs

theorem Keeps.bind {x : Attempt σ α} {f : α → Attempt σ β} (hx : Keeps I E x)
    (hf : ∀ a, Keeps I E (f a)) : Keeps I E (x >>= f) := by
  intro s hs
  rw [wp_bind]
  exact wp_mono (hx s hs) (fun a s' hs' => hf a s' hs') fun _ _ hE => hE

theorem Keeps.ite {c : Prop} [Decidable c] {x y : Attempt σ α} (hx : Keeps I E x)
    (hy : Keeps I E y) : Keeps I E (if c then x else y) := by
  split
  · exact hx
  · exact hy

theorem Keeps.forM {f : β → Attempt σ PUnit} (hf : ∀ b, Keeps I E (f b)) (l : List β) :
    Keeps I E (l.forM f) := fun _ hs =>
  wp_forM_keep (fun b _ => hf b) hs

theorem Keeps.repeatWhile {step : Attempt σ Bool} (hstep : Keeps I E step) (bound : Nat) :
    Keeps I E (repeatWhile step bound) := fun _ hs =>
  wp_repeatWhile_of_step hstep bound hs

end Keeps

end Attempt

end GraphInterval
