import GraphInterval.Proofs.GraphVar.Mutation

/-!
# What mutations add to the log

A mutation that fails adds nothing.  One that succeeds logs what it is asked
for exactly if it answers that something changed, and then once.  Enforcing an
edge may log its endpoints before, and removing a node logs its edges before,
so for these two only the events of their own sort are counted.
-/

namespace GraphInterval

/-- The kinds of the events that concern a node. -/
def EventKind.nodeEvents : List EventKind := [nodeEnforced, nodeRemoved]

/-- One event of a kind if something changed, and no event of another kind. -/
def EventKind.once (changed : Bool) (decided kind : EventKind) : ℕ :=
  (changed && kind == decided).toNat

namespace GraphVar

variable {g g₁ g₂ : GraphVar} {r r' m m' : ℕ} {a b v : ℕ}

/-! ### Events about edges -/

/-- The log grew by events of which some exclude and some enforce an edge. -/
def Adds (g : GraphVar) (removed enforced : ℕ) (g' : GraphVar) : Prop :=
  ∃ news, g'.events = g.events ++ news ∧
    news.countP (·.kind == .edgeRemoved) = removed ∧
    news.countP (·.kind == .edgeEnforced) = enforced

theorem Adds.refl (g : GraphVar) : g.Adds 0 0 g := ⟨[], (List.append_nil _).symm, rfl, rfl⟩

theorem Adds.trans (h : g.Adds r m g₁) (h' : g₁.Adds r' m' g₂) :
    g.Adds (r + r') (m + m') g₂ := by
  obtain ⟨news, hevents, rfl, rfl⟩ := h
  obtain ⟨news', hevents', rfl, rfl⟩ := h'
  have hboth : g₂.events = g.events ++ (news ++ news') := calc
    g₂.events = g₁.events ++ news' := hevents'
    _ = g.events ++ news ++ news' := by rw [hevents]
    _ = g.events ++ (news ++ news') := List.append_assoc _ _ _
  exact ⟨news ++ news', hboth, List.countP_append, List.countP_append⟩

theorem adds_excludeEdge (g : GraphVar) (a b : ℕ) : g.Adds 1 0 (g.excludeEdge a b) :=
  ⟨[.edgeRemoved a b], events_record _ _, rfl, rfl⟩

theorem adds_includeEndpoint (g : GraphVar) (v : ℕ) : g.Adds 0 0 (g.includeEndpoint v) := by
  rw [includeEndpoint]
  split
  · exact Adds.refl g
  · exact ⟨[.nodeEnforced v], events_record _ _, rfl, rfl⟩

theorem adds_includeEdge (g : GraphVar) (a b : ℕ) : g.Adds 0 1 (g.includeEdge a b) :=
  ⟨[.edgeEnforced a b], events_record _ _, rfl, rfl⟩

theorem adds_includeWhole (g : GraphVar) (a b : ℕ) : g.Adds 0 1 (g.includeWhole a b) := by
  have hnodes := (adds_includeEndpoint g a).trans (adds_includeEndpoint (g.includeEndpoint a) b)
  exact hnodes.trans (adds_includeEdge _ a b)

/-! ### Events of some kinds -/

/-- The log grew by events of which a given number is of each of the kinds. -/
def Gains (kinds : List EventKind) (g : GraphVar) (gain : EventKind → ℕ) (g' : GraphVar) : Prop :=
  ∃ news, g'.events = g.events ++ news ∧ ∀ kind ∈ kinds, news.countP (·.kind == kind) = gain kind

variable {kinds : List EventKind} {gain gain' : EventKind → ℕ}

theorem Gains.refl (kinds : List EventKind) (g : GraphVar) : Gains kinds g (fun _ => 0) g :=
  ⟨[], (List.append_nil _).symm, fun _ _ => rfl⟩

theorem Gains.trans (h : Gains kinds g gain g₁) (h' : Gains kinds g₁ gain' g₂) :
    Gains kinds g (fun kind => gain kind + gain' kind) g₂ := by
  obtain ⟨news, hevents, hcount⟩ := h
  obtain ⟨news', hevents', hcount'⟩ := h'
  refine ⟨news ++ news', ?_, fun kind hkind => ?_⟩
  · rw [hevents', hevents, List.append_assoc]
  · rw [List.countP_append, hcount kind hkind, hcount' kind hkind]

theorem Gains.congr (h : Gains kinds g gain g₁) (heq : ∀ kind ∈ kinds, gain kind = gain' kind) :
    Gains kinds g gain' g₁ := by
  obtain ⟨news, hevents, hcount⟩ := h
  exact ⟨news, hevents, fun kind hkind => (hcount kind hkind).trans (heq kind hkind)⟩

/-- An attempt that changed nothing logs nothing. -/
theorem gains_unchanged (kinds : List EventKind) (g : GraphVar) (decided : EventKind) :
    Gains kinds g (decided.once false) g := Gains.refl kinds g

/-- A change logs one event of its kind. -/
theorem gains_event (event : Event) (hevents : g₁.events = g.events ++ [event]) :
    Gains kinds g (event.kind.once true) g₁ := by
  refine ⟨[event], hevents, fun kind _ => ?_⟩
  rw [List.countP_singleton, BEq.comm, EventKind.once, Bool.true_and]
  cases kind == event.kind with
  | false => rfl
  | true => rfl

theorem Adds.gains (gain : EventKind → ℕ)
    (h : g.Adds (gain .edgeRemoved) (gain .edgeEnforced) g₁) :
    Gains EventKind.edgeEvents g gain g₁ := by
  obtain ⟨news, hevents, hremoved, henforced⟩ := h
  refine ⟨news, hevents, fun kind hkind => ?_⟩
  obtain rfl | rfl : kind = .edgeEnforced ∨ kind = .edgeRemoved := by
    simpa [EventKind.edgeEvents] using hkind
  · exact henforced
  · exact hremoved

/-! ### The mutations -/

theorem enforceEdge_gains (hg : g.Valid) (a b : ℕ) :
    (enforceEdge a b).wp
      (fun changed g' => g.Narrows g' ∧
        Gains EventKind.edgeEvents g (EventKind.edgeEnforced.once changed) g')
      (fun _ g' => g' = g) g := by
  rw [Attempt.wp, enforceEdge_eq hg]
  cases hpotential : g.isPotential a b with
  | false => rfl
  | true =>
      cases hmandatory : g.isMandatory a b with
      | true => exact ⟨.refl, gains_unchanged _ g _⟩
      | false =>
          have hnarrows := (includeWhole_spec hg hpotential hmandatory).1
          exact ⟨hnarrows, Adds.gains _ (adds_includeWhole g a b)⟩

theorem removeEdge_gains (kinds : List EventKind) (g : GraphVar) (a b : ℕ) :
    (removeEdge a b).wp
      (fun changed g' => g.Narrows g' ∧ Gains kinds g (EventKind.edgeRemoved.once changed) g')
      (fun _ g' => g' = g) g := by
  rw [Attempt.wp, removeEdge_eq]
  cases hmandatory : g.isMandatory a b with
  | true => rfl
  | false =>
      cases hpotential : g.isPotential a b with
      | false => exact ⟨.refl, gains_unchanged kinds g _⟩
      | true =>
          have hnarrows : g.Narrows (g.excludeEdge a b) :=
            .single (.excludeEdge hpotential hmandatory)
          exact ⟨hnarrows, gains_event (.edgeRemoved a b) (events_record _ _)⟩

/-- A node that is not mandatory is enforced, and no other node is. -/
theorem enforceNode_gains (kinds : List EventKind) (hg : g.Valid)
    (hnot : g.isMandatoryNode v = false) :
    (enforceNode v).wp
      (fun _ g' => g.Narrows g' ∧ Gains kinds g (EventKind.nodeEnforced.once true) g' ∧
        ∀ x, x ≠ v → g'.isMandatoryNode x = g.isMandatoryNode x)
      (fun _ g' => g' = g) g := by
  rw [Attempt.wp, enforceNode_eq, hnot]
  cases hpotential : g.isPotentialNode v with
  | false => rfl
  | true =>
      have hnarrows : g.Narrows (g.includeNode v) := .single (.includeNode hpotential hnot)
      have hothers : ∀ x, x ≠ v → (g.includeNode v).isMandatoryNode x = g.isMandatoryNode x := by
        intro x hx
        have hlt : v < g.lower.order := hg.order_eq ▸ hg.upper.lt_of_hasNode hpotential
        rw [isMandatoryNode, lower_includeNode, Bool.eq_iff_iff, Graph.hasNode_addNode hg.lower hlt]
        exact or_iff_right hx
      exact ⟨hnarrows, gains_event (.nodeEnforced v) (events_record _ _), hothers⟩

/-- No node was decided. -/
structure SameNodes (g s : GraphVar) : Prop where
  gains : Gains EventKind.nodeEvents g (fun _ => 0) s
  isPotentialNode : ∀ x, s.isPotentialNode x = g.isPotentialNode x

theorem discard_removeEdge_sameNodes (g : GraphVar) (a b : ℕ) :
    Attempt.Keeps (SameNodes g) (fun _ _ => True) (discard (removeEdge a b)) := by
  intro s hs
  rw [Attempt.wp_discard]
  apply Attempt.wp_mono (Attempt.wp_and (removeEdge_gains EventKind.nodeEvents s a b)
    (removeEdge_keepsNodes s a b)) _ fun _ _ _ => trivial
  intro changed s' h
  obtain ⟨⟨-, hgains⟩, hnodes⟩ := h
  have hnone : ∀ kind ∈ EventKind.nodeEvents,
      0 + EventKind.edgeRemoved.once changed kind = 0 := by cases changed <;> decide
  constructor
  · exact (hs.gains.trans hgains).congr hnone
  · exact fun x => (hnodes x).trans (hs.isPotentialNode x)

theorem removeIncidentEdges_sameNodes (g : GraphVar) (v : ℕ) :
    Attempt.Keeps (SameNodes g) (fun _ _ => True) (removeIncidentEdges v) := by
  unfold removeIncidentEdges
  apply Attempt.keeps_get.bind
  intro s
  apply (Attempt.Keeps.forM (fun other => discard_removeEdge_sameNodes g v other) _).bind
  intro _
  apply Attempt.Keeps.ite
  · apply Attempt.keeps_get.bind
    intro s
    exact .forM (fun other => discard_removeEdge_sameNodes g other v) _
  · exact Attempt.keeps_pure ()

/-- A node that is possible is removed, and no other node is. -/
theorem removeNode_gains (hg : g.Valid) (hpotential : g.isPotentialNode v = true) :
    (removeNode v).wp
      (fun _ g' => g.Narrows g' ∧
        Gains EventKind.nodeEvents g (EventKind.nodeRemoved.once true) g' ∧
        ∀ x, x ≠ v → g'.isPotentialNode x = g.isPotentialNode x)
      (fun _ g' => g' = g) g := by
  have hstart : SameNodes g g := ⟨Gains.refl _ g, fun _ => rfl⟩
  apply removeNode_wp_of hg v (removeIncidentEdges_sameNodes g v g hstart)
  · exact fun _ => rfl
  · intro habsent
    exact absurd (habsent.symm.trans hpotential) (by simp)
  · intro _ s hs hnarrows hupper
    have hall := hs.gains.trans (gains_event (.nodeRemoved v) (events_record _ _))
    refine ⟨hnarrows, hall.congr fun kind _ => Nat.zero_add _, fun x hx => ?_⟩
    rw [← hs.isPotentialNode, isPotentialNode, upper_excludeNode, Bool.eq_iff_iff,
      Graph.hasNode_erase hupper]
    exact and_iff_right hx

end GraphVar

end GraphInterval
