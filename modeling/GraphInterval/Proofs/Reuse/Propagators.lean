import GraphInterval.Channel
import GraphInterval.Session
import GraphInterval.Proofs.Connectivity.Search
import GraphInterval.Proofs.Lockstep
import GraphInterval.Proofs.Transitivity.Filter

/-!
# Propagators that are used again

A propagation from scratch of a propagator that was used before is the one of a
new propagator.  The stacks of the transitive propagator are emptied first, so
nothing that an interrupted propagation left on them is seen; the connectedness
propagator clears its marks before every search; and the bounds of the degree
propagator never change.  The lists of what is being visited are emptied before
they are filled, so their old content matters to no propagator, and the channel
keeps nothing else but counters.
-/

namespace GraphInterval

open Attempt

namespace Transitivity

/-- The same edges wait. -/
def SameStacks (t u : Transitivity) : Prop := t.enforced = u.enforced ∧ t.removed = u.removed

theorem respects_enforce (a b : Nat) : Respects (Posted.Same SameStacks) (enforce a b) := by
  intro s t h
  refine alike_seq (Posted.alike_onDomains _ h) fun changed s' t' h' => ?_
  refine alike_ite Iff.rfl (fun _ => ?_) fun _ => alike_pure h'
  exact Posted.alike_update h' fun hw => ⟨by simp only [hw.1], hw.2⟩

theorem respects_remove (a b : Nat) : Respects (Posted.Same SameStacks) (remove a b) := by
  intro s t h
  refine alike_seq (Posted.alike_onDomains _ h) fun changed s' t' h' => ?_
  refine alike_ite Iff.rfl (fun _ => ?_) fun _ => alike_pure h'
  exact Posted.alike_update h' fun hw => ⟨hw.1, by simp only [hw.2]⟩

theorem respects_conclude (other third : Edge) :
    Respects (Posted.Same SameStacks) (conclude other third) := by
  intro s t h
  refine alike_get_bind ?_
  rw [h.domains]
  refine alike_ite Iff.rfl (fun _ => respects_enforce third.1 third.2 s t h) fun _ => ?_
  exact alike_ite Iff.rfl (fun _ => respects_remove other.1 other.2 s t h) fun _ => alike_pure h

theorem respects_extendForward (a b c : Nat) :
    Respects (Posted.Same SameStacks) (extendForward a b c) := by
  intro s t h
  rw [extendForward_eq]
  exact alike_ite Iff.rfl (fun _ => alike_pure h) fun _ => respects_conclude (b, c) (a, c) s t h

theorem respects_extendBackward (a b c : Nat) :
    Respects (Posted.Same SameStacks) (extendBackward a b c) := by
  intro s t h
  rw [extendBackward_eq]
  exact alike_ite Iff.rfl (fun _ => alike_pure h) fun _ => respects_conclude (c, a) (c, b) s t h

theorem respects_edgeEnforced (a b : Nat) :
    Respects (Posted.Same SameStacks) (edgeEnforced a b) := by
  intro s t h
  unfold edgeEnforced
  refine alike_ite Iff.rfl (fun _ => alike_pure h) fun _ => ?_
  refine alike_seq (Posted.respects_visitEach (fun _ _ _ hw => hw) (respects_extendForward a b)
    s t h) fun _ s' t' h' => ?_
  exact Posted.respects_visitEach (fun _ _ _ hw => hw) (respects_extendBackward a b) s' t' h'

theorem respects_edgeRemoved (a b : Nat) : Respects (Posted.Same SameStacks) (edgeRemoved a b) := by
  intro s t h
  unfold edgeRemoved
  refine alike_ite Iff.rfl (fun _ => alike_pure h) fun _ => ?_
  refine alike_seq (Posted.respects_visitEach (fun _ _ _ hw => hw) (fun c => respects_remove c b)
    s t h) fun _ s' t' h' => ?_
  exact Posted.respects_visitEach (fun _ _ _ hw => hw) (respects_remove a) s' t' h'

theorem respects_processNext : Respects (Posted.Same SameStacks) processNext := by
  intro s t h
  refine alike_get_bind ?_
  dsimp only
  obtain ⟨henforced, hremoved⟩ := h.propagator
  rw [henforced, hremoved]
  cases t.propagator.enforced with
  | cons e rest =>
    refine alike_seq (Posted.alike_update (R := SameStacks) h fun hw => ⟨rfl, hw.2⟩)
      fun _ s' t' h' => ?_
    exact alike_seq (respects_edgeEnforced e.1 e.2 s' t' h') fun _ _ _ h'' => alike_pure h''
  | nil =>
    cases t.propagator.removed with
    | cons e rest =>
      refine alike_seq (Posted.alike_update (R := SameStacks) h fun hw => ⟨hw.1, rfl⟩)
        fun _ s' t' h' => ?_
      exact alike_seq (respects_edgeRemoved e.1 e.2 s' t' h') fun _ _ _ h'' => alike_pure h''
    | nil => exact alike_pure h

theorem respects_filter : Respects (Posted.Same SameStacks) filter := by
  intro s t h
  refine alike_get_bind ?_
  obtain ⟨henforced, hremoved⟩ := h.propagator
  rw [henforced, hremoved, h.domains]
  exact alike_repeatWhile respects_processNext _ h

theorem respects_filterWindow : Respects (Posted.Same SameStacks) filterWindow := fun s t h =>
  alike_ensuring (alike_mono (respects_filter s t h)
    (fun _ _ _ h' => ⟨h'.domains, h'.propagator⟩) fun _ _ _ h' => ⟨h'.domains, h'.propagator⟩)

/-- Putting edges on the stacks does not look at them. -/
theorem sameStacks_foldl (g : GraphVar) (edges : List Edge) {t u : Transitivity}
    (h : SameStacks t u) :
    SameStacks (edges.foldl (enqueueEdge g) t) (edges.foldl (enqueueEdge g) u) := by
  refine List.foldl_rel h fun e _ t u hw => ?_
  unfold enqueueEdge
  split
  · exact ⟨by simp only [hw.1], hw.2⟩
  · split
    · exact ⟨hw.1, by simp only [hw.2]⟩
    · exact hw

/-- Whatever is left on the stacks, the whole graph is propagated alike. -/
theorem propagateFromScratch_alike (t u : Transitivity) (g : GraphVar) :
    propagateFromScratch.alike propagateFromScratch (fun _ => Posted.Same SameStacks)
      (fun _ => Posted.Same SameStacks) ⟨t, g⟩ ⟨u, g⟩ := by
  have hstart : Posted.Same (fun _ _ => True) (⟨t, g⟩ : Posted Transitivity GraphVar) ⟨u, g⟩ :=
    ⟨rfl, trivial⟩
  refine alike_seq (Posted.alike_update (R := SameStacks) hstart fun _ => ⟨rfl, rfl⟩)
    fun _ s' t' h => ?_
  refine alike_get_bind ?_
  rw [h.domains]
  refine alike_seq (Posted.alike_update (R := SameStacks) h fun hw => sameStacks_foldl _ _ hw)
    fun _ s' t' h' => ?_
  exact respects_filterWindow s' t' h'

end Transitivity

namespace DegreeLimit

/-- One constraint in both runs. -/
def SameLimits (orientation : Orientation) (bounds : Array Nat) (p q : DegreeLimit) : Prop :=
  (p.orientation = orientation ∧ p.bounds = bounds) ∧
    q.orientation = orientation ∧ q.bounds = bounds

variable {o : Orientation} {bounds : Array Nat}

theorem respects_removeOptional (orientation : Orientation) (node other : Nat) :
    Respects (Posted.Same (SameLimits o bounds)) (removeOptional orientation node other) := by
  intro s t h
  refine alike_seq (Posted.alike_onDomains _ h) fun changed s' t' h' => ?_
  exact alike_ite Iff.rfl (fun _ => Posted.alike_update h' id) fun _ => alike_pure h'

theorem respects_limitNode (node : Nat) :
    Respects (Posted.Same (SameLimits o bounds)) (limitNode node) := by
  rintro ⟨p, g⟩ ⟨q, g'⟩ h
  obtain ⟨rfl, ⟨hpo, hpb⟩, hqo, hqb⟩ := h
  have h : Posted.Same (SameLimits o bounds) (⟨p, g⟩ : Posted DegreeLimit GraphVar) ⟨q, g⟩ :=
    ⟨rfl, ⟨hpo, hpb⟩, hqo, hqb⟩
  have hbound : p.bound node = q.bound node := by rw [bound, bound, hpb, hqb]
  refine alike_get_bind ?_
  dsimp only
  rw [hpo, hqo]
  refine alike_ite (by rw [hbound]) (fun _ => ?_) fun _ => ?_
  · exact alike_seq (Posted.alike_onDomains _ h) fun _ _ _ h' => Posted.alike_update h' id
  · refine alike_ite (by rw [hbound]) (fun _ => ?_) fun _ => alike_pure h
    exact Posted.respects_visitEach (fun _ _ _ hl => hl) (respects_removeOptional o node) _ _ h

theorem respects_propagateFromScratch :
    Respects (Posted.Same (SameLimits o bounds)) propagateFromScratch := by
  intro s t h
  refine alike_seq (Posted.alike_update (R := SameLimits o bounds) h id) fun _ s' t' h' => ?_
  exact Posted.respects_visitEach (fun _ _ _ hl => hl) respects_limitNode s' t' h'

/-- The bound of every node of a graph. -/
def table (n : Nat) : DegreeBound → Array Nat
  | .uniform bound => Array.replicate n bound
  | .perNode bounds => bounds.toArray

theorem eq_of_make {orientation : Orientation} {bound : DegreeBound} {g : GraphVar}
    {d : DegreeLimit} (h : make orientation bound g = .ok d) :
    d.orientation = orientation ∧ d.bounds = table g.order bound := by
  unfold make at h
  split at h
  next => cases h
  next =>
    cases bound with
    | uniform bound =>
      cases h
      exact ⟨rfl, rfl⟩
    | perNode bounds =>
      simp only at h
      split at h
      next =>
        cases h
        exact ⟨rfl, rfl⟩
      next => cases h

end DegreeLimit

namespace Search

/-- A search starts without marks, so only the number of nodes matters. -/
theorem explore_congr {s t : Search} (h : s.reached.size = t.reached.size) (g : GraphVar)
    (root : Nat) (excluded : Option Nat) :
    s.explore g root excluded = t.explore g root excluded := by
  rw [explore, explore, h]

end Search

namespace Connectivity

/-- Both runs have room for the nodes of the same graphs. -/
def Fits (n : Nat) (c d : Connectivity) : Prop :=
  c.search.reached.size = n ∧ d.search.reached.size = n

variable {n : Nat}

theorem respects_explore (root : Nat) (excluded : Option Nat) :
    Respects (Posted.Same (Fits n)) (explore root excluded) := by
  rintro ⟨c, g⟩ ⟨d, g'⟩ ⟨rfl, hc, hd⟩
  have hsame : d.search.explore g root excluded = c.search.explore g root excluded :=
    Search.explore_congr (hd.trans hc.symm) g root excluded
  have hsize := (Search.size_explore c.search g root excluded).trans hc
  refine alike_get_bind ?_
  dsimp only
  rw [hsame]
  have h : Posted.Same (Fits n) (⟨c, g⟩ : Posted Connectivity GraphVar) ⟨d, g⟩ := ⟨rfl, hc, hd⟩
  exact alike_seq (Posted.alike_update h fun _ => ⟨hsize, hsize⟩) fun _ _ _ h' => alike_pure h'

theorem respects_removeUnreached (node : Nat) :
    Respects (Posted.Same (Fits n)) (removeUnreached node) := fun _ _ h =>
  alike_seq (Posted.alike_onDomains _ h) fun _ _ _ h' => Posted.alike_update h' id

theorem respects_enforceSeparator (root node : Nat) :
    Respects (Posted.Same (Fits n)) (enforceSeparator root node) := by
  intro s t h
  refine alike_seq (respects_explore root (some node) s t h) fun search s' t' h' => ?_
  refine alike_get_bind ?_
  rw [h'.domains]
  refine alike_ite Iff.rfl (fun _ => ?_) fun _ => alike_pure h'
  exact alike_seq (Posted.alike_onDomains _ h') fun _ _ _ h'' => Posted.alike_update h'' id

theorem respects_propagateFromScratch :
    Respects (Posted.Same (Fits n)) propagateFromScratch := by
  intro s t h
  refine alike_seq (Posted.alike_update (R := Fits n) h id) fun _ s₁ t₁ h₁ => ?_
  refine alike_get_bind ?_
  rw [h₁.domains]
  cases t₁.domains.lower.nodes.toList.head? with
  | none => exact alike_pure h₁
  | some root =>
    refine alike_seq (respects_explore root none s₁ t₁ h₁) fun search s₂ t₂ h₂ => ?_
    refine alike_get_bind ?_
    dsimp only
    rw [h₂.domains]
    refine alike_ite Iff.rfl (fun _ => alike_throw h₂) fun _ => ?_
    refine alike_seq (Posted.respects_visitEach (fun _ _ _ hf => hf) respects_removeUnreached
      s₂ t₂ h₂) fun _ s₃ t₃ h₃ => ?_
    refine alike_get_bind ?_
    rw [h₃.domains]
    refine alike_ite Iff.rfl (fun _ => alike_pure h₃) fun _ => ?_
    exact Posted.respects_visitEach (fun _ _ _ hf => hf) (respects_enforceSeparator root) s₃ t₃ h₃

end Connectivity

namespace Channel

/-- Neither the counters of a channel nor the values that are left in it are read. -/
abbrev Beside : Posted Channel ChannelDomains → Posted Channel ChannelDomains → Prop :=
  Posted.Same fun _ _ => True

theorem respects_assignAlong (node neighbour : Nat) :
    Respects Beside (assignAlong node neighbour) := by
  intro s t h
  refine alike_seq (Posted.alike_onDomains _ h) fun changed s' t' h' => ?_
  exact alike_ite Iff.rfl (fun _ => Posted.alike_update h' id) fun _ => alike_pure h'

theorem respects_removeValue (node value : Nat) : Respects Beside (removeValue node value) := by
  intro s t h
  refine alike_seq (Posted.alike_onDomains _ h) fun changed s' t' h' => ?_
  exact alike_ite Iff.rfl (fun _ => Posted.alike_update h' id) fun _ => alike_pure h'

theorem respects_channelNode (node : Nat) : Respects Beside (channelNode node) := by
  intro s t h
  refine alike_seq (Posted.respects_visitEach (fun _ _ _ _ => trivial) (respects_assignAlong node)
    s t h) fun _ s' t' h' => ?_
  exact Posted.respects_visitEach (fun _ _ _ _ => trivial) (respects_removeValue node) s' t' h'

theorem respects_propagateFromScratch : Respects Beside propagateFromScratch := by
  intro s t h
  refine alike_seq (Posted.alike_update (R := fun _ _ => True) h id) fun _ s' t' h' => ?_
  refine alike_get_bind ?_
  rw [h'.domains]
  exact alike_forM (fun node _ => respects_channelNode node) h'

end Channel

/-! ### Propagators on a graph -/

namespace Propagator

/-- What a propagator is made with, as opposed to what it notes down while it works. -/
inductive Setup where
  | transitivity
  | connectivity (size : Nat)
  | degree (orientation : Orientation) (bounds : Array Nat)

def setup : Propagator → Setup
  | transitivity _ => .transitivity
  | connectivity c => .connectivity c.search.reached.size
  | degree p => .degree p.orientation p.bounds

variable {p q start fresh : Propagator} {g g₀ : GraphVar} {constraint : Constraint}

/-- Only the number of nodes of the graph matters for the making of a propagator. -/
theorem setup_make (hstart : make g₀ constraint = .ok start)
    (hfresh : make g constraint = .ok fresh) (horder : g.order = g₀.order) :
    fresh.setup = start.setup := by
  cases constraint with
  | transitive =>
    cases hstart
    cases hfresh
    rfl
  | connected =>
    cases hstart
    cases hfresh
    simp only [setup, Connectivity.make, Array.size_replicate, horder]
  | degreeAtMost orientation bound =>
    simp only [make] at hstart hfresh
    cases hd : DegreeLimit.make orientation bound g₀ with
    | error refusal => simp [hd, Except.map] at hstart
    | ok d =>
      cases he : DegreeLimit.make orientation bound g with
      | error refusal => simp [he, Except.map] at hfresh
      | ok e =>
        rw [hd] at hstart
        rw [he] at hfresh
        cases hstart
        cases hfresh
        obtain ⟨horientation, hbounds⟩ := DegreeLimit.eq_of_make hd
        obtain ⟨horientation', hbounds'⟩ := DegreeLimit.eq_of_make he
        simp only [setup, horientation, hbounds, horientation', hbounds', horder]

/-- The states of a propagator after any calls on any graphs. -/
inductive Used (start : Propagator) : Propagator → Prop where
  | new : Used start start
  | propagate {p : Propagator} (g : GraphVar) : Used start p →
      Used start (Propagator.propagate.after ⟨p, g⟩).propagator
  | propagateFromScratch {p : Propagator} (g : GraphVar) : Used start p →
      Used start (Propagator.propagateFromScratch.after ⟨p, g⟩).propagator
  | synchronise {p : Propagator} (g : GraphVar) : Used start p →
      Used start (p.synchronise g)

theorem setup_propagateFromScratch (p : Propagator) (g : GraphVar) :
    (propagateFromScratch.after ⟨p, g⟩).propagator.setup = p.setup := by
  cases p with
  | transitivity t =>
    exact congrArg (fun s => s.propagator.setup)
      (Posted.after_wrapped transitivity Transitivity.propagateFromScratch t ⟨transitivity t, g⟩)
  | connectivity c =>
    refine (congrArg (fun s => s.propagator.setup) (Posted.after_wrapped connectivity
      Connectivity.propagateFromScratch c ⟨connectivity c, g⟩)).trans ?_
    have hsame : Posted.Same (Connectivity.Fits c.search.reached.size) ⟨c, g⟩ ⟨c, g⟩ :=
      ⟨rfl, rfl, rfl⟩
    have hafter := (Connectivity.respects_propagateFromScratch.after hsame).propagator
    exact congrArg Setup.connectivity hafter.1
  | degree d =>
    refine (congrArg (fun s => s.propagator.setup) (Posted.after_wrapped degree
      DegreeLimit.propagateFromScratch d ⟨degree d, g⟩)).trans ?_
    have hsame : Posted.Same (DegreeLimit.SameLimits d.orientation d.bounds) ⟨d, g⟩ ⟨d, g⟩ :=
      ⟨rfl, ⟨rfl, rfl⟩, rfl, rfl⟩
    have hafter := (DegreeLimit.respects_propagateFromScratch.after hsame).propagator
    exact congrArg₂ Setup.degree hafter.1.1 hafter.1.2

theorem Used.setup_eq (h : Used start p) : p.setup = start.setup := by
  induction h with
  | new => rfl
  | @propagate p g _ ih =>
    cases p with
    | transitivity t =>
      refine (congrArg (fun s => s.propagator.setup) (Posted.after_wrapped transitivity
        Transitivity.propagate t ⟨transitivity t, g⟩)).trans ?_
      exact ih
    | connectivity c => exact (setup_propagateFromScratch _ g).trans ih
    | degree d => exact (setup_propagateFromScratch _ g).trans ih
  | propagateFromScratch g _ ih => exact (setup_propagateFromScratch _ g).trans ih
  | @synchronise p g _ ih =>
    cases p with
    | transitivity t => exact ih
    | connectivity c => exact ih
    | degree d => exact ih

/-- Propagators that were made alike propagate a graph alike, whatever they were used for. -/
theorem observed_congr (h : p.setup = q.setup) (g : GraphVar) :
    Posted.observed propagateFromScratch ⟨p, g⟩ = Posted.observed propagateFromScratch ⟨q, g⟩ := by
  cases p with
  | transitivity t =>
    cases q with
    | transitivity u =>
      have halike := Transitivity.propagateFromScratch_alike t u g
      exact Posted.observed_wrapped_congr transitivity _ (Posted.observed_eq halike)
    | connectivity | degree => cases h
  | connectivity c =>
    cases q with
    | connectivity d =>
      have hsize : d.search.reached.size = c.search.reached.size := (Setup.connectivity.inj h).symm
      have hsame : Posted.Same (Connectivity.Fits c.search.reached.size) ⟨c, g⟩ ⟨d, g⟩ :=
        ⟨rfl, rfl, hsize⟩
      have halike := Connectivity.respects_propagateFromScratch _ _ hsame
      exact Posted.observed_wrapped_congr connectivity _ (Posted.observed_eq halike)
    | transitivity | degree => cases h
  | degree c =>
    cases q with
    | degree d =>
      obtain ⟨horientation, hbounds⟩ := Setup.degree.inj h
      have hsame : Posted.Same (DegreeLimit.SameLimits c.orientation c.bounds) ⟨c, g⟩ ⟨d, g⟩ :=
        ⟨rfl, ⟨rfl, rfl⟩, horientation.symm, hbounds.symm⟩
      have halike := DegreeLimit.respects_propagateFromScratch _ _ hsame
      exact Posted.observed_wrapped_congr degree _ (Posted.observed_eq halike)
    | transitivity | connectivity => cases h

/-- A propagator that was used before propagates a graph like a new one. -/
theorem Used.observed_eq (hstart : make g₀ constraint = .ok start) (hp : Used start p)
    (hfresh : make g constraint = .ok fresh) (horder : g.order = g₀.order) :
    Posted.observed Propagator.propagateFromScratch ⟨p, g⟩ =
      Posted.observed Propagator.propagateFromScratch ⟨fresh, g⟩ :=
  observed_congr (hp.setup_eq.trans (setup_make hstart hfresh horder).symm) g

end Propagator

end GraphInterval
