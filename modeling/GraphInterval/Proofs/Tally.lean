import GraphInterval.Proofs.GraphVar.Gains
import GraphInterval.Proofs.Propagation

/-!
# Counters and the log

A propagator counts its decisions under names that stand for kinds of events.
The counters agree with the log over a run if each of them rises by the number
of events of its kind that the run logs.  Agreement is kept by a mutation that
is counted exactly if it changed something, and by everything that touches
neither the graph nor the counters, so it holds after a run that fails as well.
-/

namespace GraphInterval

/-- The name of the counter of the events of a kind. -/
def EventKind.counterName : EventKind → String
  | edgeEnforced => "num_edges_enforced"
  | edgeRemoved => "num_edges_removed"
  | nodeEnforced => "num_nodes_enforced"
  | nodeRemoved => "num_nodes_removed"

/-- The counter of the events of a kind, if there is one. -/
def Counters.value? (counters : Counters) (kind : EventKind) : Option ℕ :=
  counters.lookup kind.counterName

/-- For some kinds of events, the counters rose by the numbers of events that the log gained. -/
def CountsEvents (kinds : List EventKind) (before : Counters) (g : GraphVar) (after : Counters)
    (g' : GraphVar) : Prop :=
  ∃ news, g'.events = g.events ++ news ∧ ∀ kind ∈ kinds, ∃ n, before.value? kind = some n ∧
    after.value? kind = some (n + news.countP (·.kind == kind))

variable {kinds : List EventKind} {c c₁ c₂ : Counters} {g g₁ g₂ : GraphVar}
variable {gain : EventKind → ℕ} {decided : EventKind}

theorem CountsEvents.refl (hcounters : (kinds.all fun kind => (c.value? kind).isSome) = true)
    (g : GraphVar) : CountsEvents kinds c g c g := by
  refine ⟨[], (List.append_nil _).symm, fun kind hkind => ?_⟩
  obtain ⟨n, hn⟩ := Option.isSome_iff_exists.mp (List.all_eq_true.mp hcounters kind hkind)
  exact ⟨n, hn, hn⟩

theorem CountsEvents.step (h : CountsEvents kinds c g c₁ g₁) (hgains : g₁.Gains kinds gain g₂)
    (hrises : ∀ kind ∈ kinds, c₂.value? kind = (c₁.value? kind).map (· + gain kind)) :
    CountsEvents kinds c g c₂ g₂ := by
  obtain ⟨news, hevents, hcount⟩ := h
  obtain ⟨news', hevents', hcount'⟩ := hgains
  refine ⟨news ++ news', ?_, fun kind hkind => ?_⟩
  · rw [hevents', hevents, List.append_assoc]
  · obtain ⟨n, hbefore, hafter⟩ := hcount kind hkind
    refine ⟨n, hbefore, ?_⟩
    rw [hrises kind hkind, hafter, Option.map_some, List.countP_append, hcount' kind hkind,
      Nat.add_assoc]

/-- The rise of a counter is the number of events. -/
theorem CountsEvents.countP_eq (h : CountsEvents kinds c g c₁ g₁) :
    ∃ news, g₁.events = g.events ++ news ∧ ∀ kind ∈ kinds, ∀ n m, c.value? kind = some n →
      c₁.value? kind = some (n + m) → news.countP (·.kind == kind) = m := by
  obtain ⟨news, hevents, hcount⟩ := h
  refine ⟨news, hevents, fun kind hkind n m hn hm => ?_⟩
  obtain ⟨n', hbefore, hafter⟩ := hcount kind hkind
  obtain rfl := Option.some.inj (hbefore.symm.trans hn)
  exact Nat.add_left_cancel (Option.some.inj (hafter.symm.trans hm))

/-! ### Propagators -/

section Propagators

variable {π : Type} {report : π → Counters} {f : π → π} {s₀ s : Posted π GraphVar}

/-- The adjustment adds one to the counter of a kind, and leaves the counters of the others. -/
def Increments (report : π → Counters) (decided : EventKind) (f : π → π) : Prop :=
  ∀ p kind, (report (f p)).value? kind =
    ((report p).value? kind).map (· + decided.once true kind)

/-- The adjustment leaves the counters of events. -/
def Leaves (report : π → Counters) (f : π → π) : Prop :=
  ∀ p kind, (report (f p)).value? kind = (report p).value? kind

/-- The graph was narrowed, and for some kinds of events the counters agree with the log. -/
structure Tallied (kinds : List EventKind) (report : π → Counters) (s₀ s : Posted π GraphVar) :
    Prop where
  narrows : s₀.domains.Narrows s.domains
  counts : CountsEvents kinds (report s₀.propagator) s₀.domains (report s.propagator) s.domains

theorem Tallied.refl
    (hcounters : (kinds.all fun kind => ((report s.propagator).value? kind).isSome) = true) :
    Tallied kinds report s s :=
  ⟨.refl, CountsEvents.refl hcounters s.domains⟩

/-- What is logged has to be counted. -/
theorem Tallied.step {p : π} (h : Tallied kinds report s₀ s) (hnarrows : s.domains.Narrows g)
    (hgains : s.domains.Gains kinds gain g) (hrises : ∀ kind ∈ kinds,
      (report p).value? kind = ((report s.propagator).value? kind).map (· + gain kind)) :
    Tallied kinds report s₀ ⟨p, g⟩ := by
  constructor
  · exact h.narrows.trans hnarrows
  · exact h.counts.step hgains hrises

/-- A change of the propagator that leaves its counters need not be known. -/
theorem Tallied.replace {p : π} (h : Tallied kinds report s₀ s)
    (hcounters : ∀ kind, (report p).value? kind = (report s.propagator).value? kind) :
    Tallied kinds report s₀ { s with propagator := p } := by
  apply h.step .refl (GraphVar.Gains.refl kinds s.domains)
  intro kind _
  rw [hcounters]
  exact (congrFun Option.map_id _).symm

/-- The attempt keeps the agreement also if it fails. -/
def KeepsTally (kinds : List EventKind) (report : π → Counters) (s₀ : Posted π GraphVar)
    {α : Type} (x : Attempt (Posted π GraphVar) α) : Prop :=
  Attempt.Keeps (Tallied kinds report s₀) (fun _ => Tallied kinds report s₀) x

theorem KeepsTally.adjusted {α : Type} {x : Attempt (Posted π GraphVar) α}
    (hx : KeepsTally kinds report s₀ x) (hf : Leaves report f) :
    KeepsTally kinds report s₀ (do Posted.update f; x) := fun s hs =>
  (Attempt.wp_bind _ _).mpr (hx _ (hs.replace (hf s.propagator)))

/-- The agreement can be seen on a propagator that is wrapped in a larger type. -/
theorem KeepsTally.wrapped {ρ : Type} {reportWhole : ρ → Counters} {wrap : π → ρ} {p : π}
    {x : Attempt (Posted π GraphVar) Unit} (hx : KeepsTally kinds report ⟨p, g⟩ x)
    (hreport : ∀ p, reportWhole (wrap p) = report p)
    (hcounters : (kinds.all fun kind => ((report p).value? kind).isSome) = true) :
    (Posted.wrapped wrap x p).wp (fun _ s => Tallied kinds reportWhole ⟨wrap p, g⟩ s)
      (fun _ s => Tallied kinds reportWhole ⟨wrap p, g⟩ s) ⟨wrap p, g⟩ := by
  have hwhole : ∀ s : Posted π GraphVar, Tallied kinds report ⟨p, g⟩ s →
      Tallied kinds reportWhole ⟨wrap p, g⟩ ⟨wrap s.propagator, s.domains⟩ := by
    intro s hs
    constructor
    · exact hs.narrows
    · simp only [hreport]
      exact hs.counts
  rw [Posted.wrapped, Attempt.wp_within]
  exact Attempt.wp_mono (hx _ (Tallied.refl hcounters)) (fun _ => hwhole) fun _ => hwhole

/-- A mutation is counted if it answers that it changed something. -/
theorem keepsTally_mutation (hs₀ : s₀.domains.Valid) {m : Attempt GraphVar Bool}
    (hm : ∀ g : GraphVar, g.Valid → m.wp
      (fun changed g' => g.Narrows g' ∧ g.Gains kinds (decided.once changed) g')
      (fun _ g' => g' = g) g) (hf : Increments report decided f) :
    KeepsTally kinds report s₀ (do if ← Posted.onDomains m then Posted.update f) := by
  intro s hs
  rw [Attempt.wp_bind, Posted.onDomains, Attempt.wp_within]
  apply Attempt.wp_mono (hm s.domains (hs.narrows.valid hs₀))
  · intro changed g hg
    obtain ⟨hnarrows, hgains⟩ := hg
    cases changed with
    | false => exact hs.step hnarrows hgains fun _ _ => (congrFun Option.map_id _).symm
    | true => exact hs.step hnarrows hgains fun kind _ => hf s.propagator kind
  · intro failure g hg
    rw [hg]
    exact hs

/-- A mutation that changes something unless it fails may be counted without asking. -/
theorem Tallied.wp_decision (hs : Tallied kinds report s₀ s) {m : Attempt GraphVar Bool}
    {P : GraphVar → Prop}
    (hm : m.wp
      (fun _ g' => s.domains.Narrows g' ∧ s.domains.Gains kinds (decided.once true) g' ∧ P g')
      (fun _ g' => g' = s.domains) s.domains) (hf : Increments report decided f) :
    (do let _ ← Posted.onDomains m; Posted.update f).wp
      (fun _ s' => Tallied kinds report s₀ s' ∧ P s'.domains)
      (fun _ s' => Tallied kinds report s₀ s') s := by
  rw [Attempt.wp_bind, Posted.onDomains, Attempt.wp_within]
  apply Attempt.wp_mono hm
  · intro _ g hg
    obtain ⟨hnarrows, hgains, hP⟩ := hg
    exact ⟨hs.step hnarrows hgains fun kind _ => hf s.propagator kind, hP⟩
  · intro failure g hg
    rw [hg]
    exact hs

/-- A loop over different nodes that have a status decides each of them once, if a turn leaves the
status of the other nodes. -/
theorem wp_visitEach_of_status {buffer : Buffer π ℕ} {listed : GraphVar → List ℕ}
    {turn : ℕ → Attempt (Posted π GraphVar) Unit} (status : GraphVar → ℕ → Bool) (value : Bool)
    (hbuffer : ∀ l, Leaves report (buffer.store · l))
    (hturn : ∀ v s, Tallied kinds report s₀ s → status s.domains v = value → (turn v).wp
      (fun _ s' => Tallied kinds report s₀ s' ∧
        ∀ x, x ≠ v → status s'.domains x = status s.domains x)
      (fun _ s' => Tallied kinds report s₀ s') s)
    (hnodup : (listed s.domains).Nodup)
    (hstatus : ∀ v ∈ listed s.domains, status s.domains v = value)
    (hs : Tallied kinds report s₀ s) :
    (Posted.visitEach buffer listed turn).wp (fun _ s' => Tallied kinds report s₀ s')
      (fun _ s' => Tallied kinds report s₀ s') s := by
  have hstart := hs.replace (hbuffer (listed s.domains) s.propagator)
  rw [Posted.wp_visitEach]
  apply Attempt.wp_mono (Attempt.wp_forM (I := fun rest s => Tallied kinds report s₀ s ∧
    rest.Nodup ∧ ∀ v ∈ rest, status s.domains v = value) _ _ ⟨hstart, hnodup, hstatus⟩)
    (fun _ _ h => h.1) fun _ _ h => h
  intro v rest s h
  obtain ⟨hs, hnodup, hstatus⟩ := h
  obtain ⟨hv, hrest⟩ := List.forall_mem_cons.mp hstatus
  obtain ⟨hnotMem, hnodup⟩ := List.nodup_cons.mp hnodup
  apply Attempt.wp_mono (hturn v s hs hv) _ fun _ _ h => h
  intro _ s' h
  obtain ⟨hs', hothers⟩ := h
  refine ⟨hs', hnodup, fun x hx => ?_⟩
  have hne : x ≠ v := fun heq => hnotMem (heq ▸ hx)
  rw [hothers x hne]
  exact hrest x hx

end Propagators

end GraphInterval
