import GraphInterval.Proofs.GraphVar.Mutation

/-!
# Reachable graph variables

The states of a graph variable that its users can produce: it is created with
nested bounds, mutated, marked, and taken back to checkpoints.  Taking the
events of its log back one after the other, newest first, never meets a node
that still has edges, and leads through valid states.  This is what makes
every reachable variable valid, also after backtracking.
-/

namespace GraphInterval

/-- The nodes of an event lie in the universe. -/
def Event.Within (n : Nat) : Event → Prop
  | .edgeEnforced a b | .edgeRemoved a b => a < n ∧ b < n
  | .nodeEnforced v | .nodeRemoved v => v < n

namespace GraphVar

/-- Two variables have equal bounds. -/
structure Agree (g h : GraphVar) : Prop where
  order : g.order = h.order
  directed : g.directed = h.directed
  lower : g.lower.shape = h.lower.shape
  upper : g.upper.shape = h.upper.shape

variable {g g' h : GraphVar}

theorem Agree.refl (g : GraphVar) : Agree g g := ⟨rfl, rfl, rfl, rfl⟩

theorem Agree.symm (hgh : Agree g h) : Agree h g :=
  ⟨hgh.order.symm, hgh.directed.symm, hgh.lower.symm, hgh.upper.symm⟩

theorem Agree.trans {k : GraphVar} (hgh : Agree g h) (hhk : Agree h k) : Agree g k :=
  ⟨hgh.order.trans hhk.order, hgh.directed.trans hhk.directed, hgh.lower.trans hhk.lower,
    hgh.upper.trans hhk.upper⟩

theorem Agree.isMandatory (hgh : Agree g h) (a b : Nat) :
    g.isMandatory a b = h.isMandatory a b :=
  Bool.eq_iff_iff.mpr (iff_of_eq (congrFun (congrFun (congrArg Shape.edge hgh.lower) a) b))

theorem Agree.isPotential (hgh : Agree g h) (a b : Nat) :
    g.isPotential a b = h.isPotential a b :=
  Bool.eq_iff_iff.mpr (iff_of_eq (congrFun (congrFun (congrArg Shape.edge hgh.upper) a) b))

/-- Variables with equal bounds have one domain. -/
theorem Agree.admits (hgh : Agree g h) {H : Shape} (hH : g.Admits H) : h.Admits H :=
  ⟨hgh.directed ▸ hH.isGraph, hgh.lower ▸ hH.lower_le, hgh.upper ▸ hH.le_upper⟩

/-- Equal bounds are what the equality tests compare. -/
theorem agree_iff_beq (hg : g.Valid) (hh : h.Valid) :
    Agree g h ↔ (g.lower == h.lower) = true ∧ (g.upper == h.upper) = true := by
  rw [Graph.beq_iff hg.lower hh.lower, Graph.beq_iff hg.upper hh.upper]
  constructor
  · rintro ⟨horder, hdirected, hlower, hupper⟩
    refine ⟨⟨?_, ?_, hlower⟩, hdirected, horder, hupper⟩
    · rw [hg.directed_eq, hh.directed_eq]
      exact hdirected
    · rw [hg.order_eq, hh.order_eq]
      exact horder
  · rintro ⟨⟨-, -, hlower⟩, hdirected, horder, hupper⟩
    exact ⟨horder, hdirected, hlower, hupper⟩

/-! ### Taking events back -/

/-- What taking an event back does to the shapes of the bounds. -/
def undoShapes (d : Bool) : Event → Shape × Shape → Shape × Shape
  | .edgeEnforced a b, (L, U) => (L.eraseEdge d a b, U)
  | .edgeRemoved a b, (L, U) => (L, U.insertEdge d a b)
  | .nodeEnforced v, (L, U) => (L.eraseNode v, U)
  | .nodeRemoved v, (L, U) => (L, U.insertNode v)

/-- An enforced node is taken back only when it has no mandatory edges. -/
def Retracts (L : Shape) : Event → Prop
  | .nodeEnforced v => ∀ x, ¬ L.edge v x ∧ ¬ L.edge x v
  | .edgeEnforced _ _ | .edgeRemoved _ _ | .nodeRemoved _ => True

theorem isIsolated_iff_retracts (hg : g.Valid) (v : Nat) :
    g.lower.isIsolated v = true ↔ Retracts g.lower.shape (.nodeEnforced v) := by
  rw [Graph.isIsolated_iff hg.lower]
  simp only [Retracts, Graph.shape, Bool.not_eq_true]

theorem undo_error_of_not_retracts (hg : g.Valid) {e : Event}
    (h : ¬ Retracts g.lower.shape e) : ∃ fault, g.undo e = .error fault := by
  cases e with
  | edgeEnforced | edgeRemoved | nodeRemoved => exact absurd trivial h
  | nodeEnforced v =>
      rw [← isIsolated_iff_retracts hg] at h
      refine ⟨.incidentEdges v, ?_⟩
      rw [GraphVar.undo, Graph.dropIsolated, if_neg h]
      rfl

/-- Taking an event back is described by the shapes of the bounds. -/
theorem undo_spec (hg : g.Valid) {e : Event} (he : e.Within g.order)
    (h : Retracts g.lower.shape e) :
    ∃ g', g.undo e = .ok g' ∧ g'.Valid ∧ g'.order = g.order ∧ g'.directed = g.directed ∧
      g'.log = g.log ∧
      (g'.lower.shape, g'.upper.shape) =
        undoShapes g.directed e (g.lower.shape, g.upper.shape) := by
  have horder := hg.order_eq
  have hdirected := hg.directed_eq
  cases e with
  | edgeEnforced a b =>
      have hshape := Graph.shape_removeEdge hg.lower a b
      rw [hdirected] at hshape
      refine ⟨_, rfl, ⟨hg.lower.removeEdge a b, hg.upper,
        (Graph.order_removeEdge _ _ _).trans horder,
        (Graph.directed_removeEdge _ _ _).trans hdirected, ?_⟩, rfl, rfl, rfl,
        Prod.ext hshape rfl⟩
      rw [hshape]
      exact ⟨hg.le.1, fun x y hxy => hg.le.2 x y hxy.2⟩
  | edgeRemoved a b =>
      have hshape := Graph.shape_addEdge hg.upper he.1 he.2
      refine ⟨_, rfl, ⟨hg.lower, hg.upper.addEdge he.1 he.2,
        horder.trans (Graph.order_addEdge _ _ _).symm,
        hdirected.trans (Graph.directed_addEdge _ _ _).symm, ?_⟩,
        Graph.order_addEdge _ _ _, Graph.directed_addEdge _ _ _, rfl, Prod.ext rfl hshape⟩
      rw [hshape]
      exact ⟨fun x hx => .inr (.inr (hg.le.1 x hx)), fun x y hxy => .inr (hg.le.2 x y hxy)⟩
  | nodeEnforced v =>
      have hisolated := (isIsolated_iff_retracts hg v).mpr h
      have hnone := (Graph.isIsolated_iff hg.lower).mp hisolated
      have hshape := Graph.shape_eraseNode hg.lower v
      refine ⟨{ g with lower := { g.lower with nodes := g.lower.nodes.erase v } }, ?_,
        ⟨hg.lower.eraseNode hnone, hg.upper, (Graph.order_eraseNode _ _).trans horder,
        hdirected, ?_⟩, rfl, rfl, rfl, Prod.ext hshape rfl⟩
      · rw [GraphVar.undo, Graph.dropIsolated, if_pos hisolated]
        rfl
      · rw [hshape]
        exact ⟨fun x hx => hg.le.1 x hx.2, hg.le.2⟩
  | nodeRemoved v =>
      have hshape := Graph.shape_addNode hg.upper he
      refine ⟨_, rfl, ⟨hg.lower, hg.upper.addNode v,
        horder.trans (Graph.order_addNode _ _).symm, hdirected, ?_⟩,
        Graph.order_addNode _ _, rfl, rfl, Prod.ext rfl hshape⟩
      rw [hshape]
      exact ⟨fun x hx => .inr (hg.le.1 x hx), hg.le.2⟩

theorem retracts_of_undo (hg : g.Valid) {e : Event} (hundo : g.undo e = .ok g') :
    Retracts g.lower.shape e := by
  by_contra h
  obtain ⟨fault, hfault⟩ := undo_error_of_not_retracts hg h
  rw [hfault] at hundo
  cases hundo

theorem Valid.undo (hg : g.Valid) {e : Event} (he : e.Within g.order)
    (hundo : g.undo e = .ok g') :
    g'.Valid ∧ g'.order = g.order ∧ g'.directed = g.directed ∧ g'.log = g.log ∧
      (g'.lower.shape, g'.upper.shape) =
        undoShapes g.directed e (g.lower.shape, g.upper.shape) := by
  obtain ⟨h, hh, hspec⟩ := undo_spec hg he (retracts_of_undo hg hundo)
  rw [hh] at hundo
  cases hundo
  exact hspec

/-- Taking an event back depends on the bounds only. -/
theorem Agree.undo (hgh : Agree g h) (hg : g.Valid) (hh : h.Valid) {e : Event}
    (he : e.Within g.order) (hundo : g.undo e = .ok g') :
    ∃ h', h.undo e = .ok h' ∧ Agree g' h' := by
  have hretracts := retracts_of_undo hg hundo
  rw [hgh.lower] at hretracts
  obtain ⟨h', hundo', -, horder', hdirected', -, hshapes'⟩ :=
    undo_spec hh (hgh.order ▸ he) hretracts
  obtain ⟨-, horder, hdirected, -, hshapes⟩ := hg.undo he hundo
  rw [hgh.lower, hgh.upper, hgh.directed, ← hshapes'] at hshapes
  exact ⟨h', hundo', (horder.trans hgh.order).trans horder'.symm,
    (hdirected.trans hgh.directed).trans hdirected'.symm,
    congrArg Prod.fst hshapes, congrArg Prod.snd hshapes⟩

/-- Taking the event of a change back restores the bounds. -/
theorem Change.undo (hg : g.Valid) (hchange : Change g g') :
    ∃ e g'', g'.events = g.events ++ [e] ∧ e.Within g'.order ∧ g'.undo e = .ok g'' ∧
      Agree g'' g := by
  have hvalid := hchange.valid hg
  obtain ⟨horder, hdirected⟩ := hchange.order
  suffices ∃ e, g'.events = g.events ++ [e] ∧ e.Within g'.order ∧
      Retracts g'.lower.shape e ∧
      undoShapes g'.directed e (g'.lower.shape, g'.upper.shape) =
        (g.lower.shape, g.upper.shape) by
    obtain ⟨e, hevents, he, hretracts, hshapes⟩ := this
    obtain ⟨g'', hundo, -, horder', hdirected', -, hshapes'⟩ := undo_spec hvalid he hretracts
    rw [hshapes] at hshapes'
    exact ⟨e, g'', hevents, he, hundo, horder'.trans horder, hdirected'.trans hdirected,
      congrArg Prod.fst hshapes', congrArg Prod.snd hshapes'⟩
  rw [hdirected, horder]
  cases hchange with
  | @includeNode v hpotential hnot =>
      have hv : v < g.order := hg.upper.lt_of_hasNode hpotential
      have hnode : ¬ g.lower.shape.node v := fun h => absurd (hnot.symm.trans h) (by simp)
      refine ⟨.nodeEnforced v, events_record _ _, hv, fun x => ⟨fun h => ?_, fun h => ?_⟩, ?_⟩
      · exact hnode (hg.lower.source h)
      · exact hnode (hg.lower.target h)
      · rw [lower_includeNode, Graph.shape_addNode hg.lower (hg.order_eq.symm ▸ hv)]
        exact Prod.ext (Shape.eraseNode_insertNode hnode) rfl
  | @includeEdge a b hpotential hnot ha hb =>
      have hlt := hg.lt_order hpotential
      refine ⟨.edgeEnforced a b, events_record _ _, hlt, trivial, ?_⟩
      rw [lower_includeEdge, Graph.shape_addEdge hg.lower (hg.order_eq.symm ▸ hlt.1)
        (hg.order_eq.symm ▸ hlt.2), hg.directed_eq]
      refine Prod.ext (Shape.eraseEdge_insertEdge ha hb fun x y hsame h => ?_) rfl
      exact absurd ((hg.isMandatory_sameEdge hsame).trans hnot) (by
        rw [show g.isMandatory x y = true from h]
        simp)
  | @excludeEdge a b hpotential hnot =>
      refine ⟨.edgeRemoved a b, events_record _ _, hg.lt_order hpotential, trivial, ?_⟩
      rw [upper_excludeEdge, Graph.shape_removeEdge hg.upper]
      exact Prod.ext rfl (Shape.insertEdge_eraseEdge (hg.upper.source hpotential)
        (hg.upper.target hpotential) fun x y hsame =>
          (hg.isPotential_sameEdge hsame).trans hpotential)
  | @excludeNode v hpotential hnot hisolated =>
      refine ⟨.nodeRemoved v, events_record _ _, hg.upper.lt_of_hasNode hpotential, trivial, ?_⟩
      rw [upper_excludeNode, Graph.shape_eraseNode hg.upper]
      exact Prod.ext rfl (Shape.insertNode_eraseNode hpotential)

/-! ### The log as a way back -/

/-- Taking the events back in the given order leads through valid states. -/
def Retractable : List Event → GraphVar → Prop
  | [], g => g.Valid
  | e :: events, g =>
      g.Valid ∧ e.Within g.order ∧ ∃ g', g.undo e = .ok g' ∧ Retractable events g'

theorem Retractable.valid {events : List Event} (h : Retractable events g) : g.Valid := by
  cases events with
  | nil => exact h
  | cons e events => exact h.1

theorem Retractable.congr {l : List Event} (hgh : Agree g h) (hh : h.Valid)
    (hg : Retractable l g) : Retractable l h := by
  induction l generalizing g h with
  | nil => exact hh
  | cons e l ih =>
      obtain ⟨hvalid, he, g', hundo, hrest⟩ := hg
      obtain ⟨h', hundo', hagree⟩ := hgh.undo hvalid hh he hundo
      have he' : e.Within h.order := hgh.order ▸ he
      exact ⟨hh, he', h', hundo', ih hagree (hh.undo he' hundo').1 hrest⟩

theorem Narrows.retractable (hnarrows : Narrows g g')
    (hg : Retractable g.events.reverse g) : Retractable g'.events.reverse g' := by
  induction hnarrows with
  | refl => exact hg
  | tail _ hchange ih =>
      obtain ⟨e, g'', hevents, he, hundo, hagree⟩ := hchange.undo ih.valid
      rw [hevents, List.reverse_append]
      have hvalid := hchange.valid ih.valid
      exact ⟨hvalid, he, g'', hundo,
        Retractable.congr hagree.symm (hvalid.undo he hundo).1 ih⟩

theorem Retractable.exists_foldlM_undo {undone rest : List Event}
    (hg : Retractable (undone ++ rest) g) :
    ∃ g', undone.foldlM GraphVar.undo g = .ok g' ∧ g'.log = g.log ∧ Retractable rest g' := by
  induction undone generalizing g with
  | nil => exact ⟨g, rfl, rfl, hg⟩
  | cons e undone ih =>
      obtain ⟨hvalid, he, h, hundo, hrest⟩ := hg
      obtain ⟨g', hfold, hsame, hretractable⟩ := ih hrest
      refine ⟨g', ?_, hsame.trans (hvalid.undo he hundo).2.2.2.1, hretractable⟩
      rw [List.foldlM_cons, hundo]
      exact hfold

theorem Retractable.mark (h : Retractable g.events.reverse g) :
    Retractable g.mark.events.reverse g.mark := by
  have hvalid := h.valid
  have hagree : Agree g g.mark := ⟨rfl, rfl, rfl, rfl⟩
  exact Retractable.congr hagree ⟨hvalid.lower, hvalid.upper, hvalid.order_eq,
    hvalid.directed_eq, hvalid.le⟩ (l := g.events.reverse) h

/-- The number of events on the log when a checkpoint was left behind. -/
def lengthAt (g : GraphVar) (target : Nat) : Nat := g.log.delimiters.getD target 0

/-- The log as it was when a checkpoint was left behind. -/
def cut (g : GraphVar) (target : Nat) : GraphVar :=
  { g with log :=
    { entries := g.log.entries.take (g.lengthAt target),
      delimiters := g.log.delimiters.take target } }

theorem Valid.cut (hg : g.Valid) (target : Nat) : (g.cut target).Valid :=
  ⟨hg.lower, hg.upper, hg.order_eq, hg.directed_eq, hg.le⟩

theorem Agree.cut (g : GraphVar) (target : Nat) : Agree g (g.cut target) := ⟨rfl, rfl, rfl, rfl⟩

theorem events_cut (g : GraphVar) (target : Nat) :
    (g.cut target).events = g.events.take (g.lengthAt target) := by
  simp [events, cut]

theorem delimiters_cut (g : GraphVar) (target : Nat) :
    (g.cut target).log.delimiters.toList = g.log.delimiters.toList.take target := by
  simp [cut]

/-- Going back to a checkpoint cuts the log there, and takes the events back that it loses. -/
theorem synchronise_eq {target : Nat} (htarget : target < g.checkpoint) :
    GraphVar.synchronise target g =
      match (g.events.drop (g.lengthAt target)).reverse.foldlM GraphVar.undo (g.cut target) with
      | .error fault => .error (.fault fault) g
      | .ok restored => .ok () restored := by
  have hlog : g.log.synchronise target =
      .ok ((g.events.drop (g.lengthAt target)).reverse, (g.cut target).log) := by
    rw [Trail.synchronise, if_pos (show target < g.log.checkpoint from htarget)]
    rfl
  rw [GraphVar.synchronise, hlog]
  rfl

/-- Going back to a checkpoint succeeds, cuts the log, and keeps it a way back. -/
theorem Retractable.synchronise (hg : Retractable g.events.reverse g) {target : Nat}
    (htarget : target < g.checkpoint) :
    ∃ g', GraphVar.synchronise target g = .ok () g' ∧ Retractable g'.events.reverse g' ∧
      g'.log = (g.cut target).log ∧
      (g.events.drop (g.lengthAt target)).reverse.foldlM GraphVar.undo (g.cut target) =
        .ok g' := by
  have hsplit : g.events.reverse = (g.events.drop (g.lengthAt target)).reverse ++
      (g.cut target).events.reverse := by
    rw [events_cut, ← List.reverse_append, List.take_append_drop]
  rw [hsplit] at hg
  have hcut := Retractable.congr (.cut g target) (hg.valid.cut target) hg
  obtain ⟨g', hfold, hsame, hrest⟩ := hcut.exists_foldlM_undo
  refine ⟨g', ?_, ?_, hsame, hfold⟩
  · rw [synchronise_eq htarget, hfold]
  · rwa [events, hsame]

/-- A checkpoint that exists can be returned to. -/
theorem Retractable.synchronise_after (hg : Retractable g.events.reverse g) {target : Nat}
    (htarget : target < g.checkpoint) :
    GraphVar.synchronise target g = .ok () ((GraphVar.synchronise target).after g) := by
  obtain ⟨t, hsync, -⟩ := hg.synchronise htarget
  rw [Attempt.after_of_ok hsync, hsync]

theorem Retractable.of_synchronise (hg : Retractable g.events.reverse g) {target : Nat}
    (hsync : GraphVar.synchronise target g = .ok () g') : Retractable g'.events.reverse g' := by
  by_cases htarget : target < g.checkpoint
  · obtain ⟨h, hh, hretractable, -⟩ := hg.synchronise htarget
    rw [hh] at hsync
    cases hsync
    exact hretractable
  · simp [GraphVar.synchronise, Trail.synchronise,
      show ¬ target < g.log.checkpoint from htarget] at hsync

/-- Taking events back keeps the universe and the kind of the variable. -/
theorem Retractable.universe_of_foldlM_undo {undone rest : List Event}
    (hg : Retractable (undone ++ rest) g) (hfold : undone.foldlM GraphVar.undo g = .ok g') :
    g'.order = g.order ∧ g'.directed = g.directed := by
  induction undone generalizing g with
  | nil =>
      cases hfold
      exact ⟨rfl, rfl⟩
  | cons e undone ih =>
      obtain ⟨hvalid, he, h, hundo, hrest⟩ := hg
      rw [List.foldlM_cons, hundo] at hfold
      obtain ⟨horder, hdirected⟩ := ih hrest hfold
      obtain ⟨-, horder', hdirected', -⟩ := hvalid.undo he hundo
      exact ⟨horder.trans horder', hdirected.trans hdirected'⟩

theorem Retractable.universe_of_synchronise (hg : Retractable g.events.reverse g) {target : Nat}
    (hsync : GraphVar.synchronise target g = .ok () g') :
    g'.order = g.order ∧ g'.directed = g.directed := by
  by_cases htarget : target < g.checkpoint
  · obtain ⟨h, hh, -, -, hfold⟩ := hg.synchronise htarget
    rw [hh] at hsync
    cases hsync
    have hsplit : g.events.reverse = (g.events.drop (g.lengthAt target)).reverse ++
        (g.cut target).events.reverse := by
      rw [events_cut, ← List.reverse_append, List.take_append_drop]
    rw [hsplit] at hg
    exact (Retractable.congr (.cut g target) (hg.valid.cut target) hg).universe_of_foldlM_undo hfold
  · simp [GraphVar.synchronise, Trail.synchronise,
      show ¬ target < g.log.checkpoint from htarget] at hsync

/-! ### Reachable variables -/

/-- The calls that narrow a graph variable. -/
inductive Mutation where
  | enforceNode (v : Nat)
  | removeNode (v : Nat)
  | enforceEdge (a b : Nat)
  | removeEdge (a b : Nat)

def Mutation.run : Mutation → Attempt GraphVar Bool
  | .enforceNode v => GraphVar.enforceNode v
  | .removeNode v => GraphVar.removeNode v
  | .enforceEdge a b => GraphVar.enforceEdge a b
  | .removeEdge a b => GraphVar.removeEdge a b

/-- The variables that are created with nested bounds, mutated, marked, and taken
back to checkpoints. -/
inductive Reachable : GraphVar → Prop where
  | unconstrained (n : Nat) (d : Bool) : Reachable (GraphVar.unconstrained n d)
  | between {n m : Nat} {d c : Bool} {lower upper : Graph} {s : GraphVar} :
      Graph.Built n d lower → Graph.Built m c upper →
      GraphVar.between? lower upper = some s → Reachable s
  | mutate {s : GraphVar} (m : Mutation) : Reachable s → Reachable (m.run.after s)
  | mark {s : GraphVar} : Reachable s → Reachable s.mark
  | synchronise {s t : GraphVar} {target : Nat} : Reachable s →
      GraphVar.synchronise target s = .ok () t → Reachable t

theorem Reachable.of_nested {n m : Nat} {d c : Bool} {lower upper : Graph}
    (hlower : Graph.Built n d lower) (hupper : Graph.Built m c upper)
    (hnested : lower.order = upper.order ∧ lower.directed = upper.directed ∧
      lower.isSubgraphOf upper = true) :
    Reachable { lower, upper, log := {} } :=
  .between hlower hupper (if_pos hnested)

/-- Mutations narrow the variable, and fail with a wipeout only. -/
theorem Mutation.wp_run (hg : g.Valid) (m : Mutation) :
    m.run.wp (fun _ g' => Narrows g g') (fun failure g' => failure = .wipeout ∧ g' = g) g := by
  cases m with
  | enforceNode v => exact enforceNode_wp v
  | removeNode v => exact removeNode_wp hg v
  | enforceEdge a b =>
      exact Attempt.wp_mono (enforceEdge_wp hg a b) (fun _ _ h => h.1) fun _ _ h => ⟨h.1, h.2.1⟩
  | removeEdge a b =>
      exact Attempt.wp_mono (removeEdge_wp hg a b) (fun _ _ h => h.1) fun _ _ h => ⟨h.1, h.2.1⟩

theorem Mutation.narrows (hg : g.Valid) (m : Mutation) : Narrows g (m.run.after g) :=
  Attempt.after_of_wp (Attempt.wp_mono (m.wp_run hg) (fun _ _ h => h) fun _ _ h => h.2 ▸ .refl)

theorem valid_of_between {n m : Nat} {d c : Bool} {lower upper : Graph}
    (hlower : Graph.Built n d lower) (hupper : Graph.Built m c upper)
    (hg : between? lower upper = some g) : g.Valid ∧ g.log = {} := by
  unfold between? at hg
  split at hg
  next hnested =>
    cases hg
    exact ⟨⟨hlower.valid.1, hupper.valid.1, hnested.1, hnested.2.1,
      (Graph.isSubgraphOf_iff hlower.valid.1).mp hnested.2.2⟩, rfl⟩
  next => cases hg

theorem valid_unconstrained (n : Nat) (d : Bool) : (unconstrained n d).Valid := by
  have hupper := (Graph.Built.complete n d).valid
  refine ⟨Graph.valid_empty n d, hupper.1, ?_, hupper.2.2.symm, fun v hv => ?_,
    fun a b hab => ?_⟩
  · exact (SparseSet.capacity_empty n).trans hupper.2.1.symm
  · have hfalse : (Graph.empty n d).hasNode v = false := SparseSet.contains_empty n v
    exact absurd (hfalse.symm.trans hv) (by simp)
  · have hfalse : (Graph.empty n d).hasEdge a b = false :=
      Neighbourhoods.contains_replicate n a b
    exact absurd (hfalse.symm.trans hab) (by simp)

/-- The log of a reachable variable leads back through valid states. -/
theorem Reachable.retractable (hg : Reachable g) : Retractable g.events.reverse g := by
  induction hg with
  | unconstrained n d => exact valid_unconstrained n d
  | between hlower hupper hg =>
      obtain ⟨hvalid, hlog⟩ := valid_of_between hlower hupper hg
      rw [events, hlog]
      exact hvalid
  | mutate m _ ih => exact (m.narrows ih.valid).retractable ih
  | mark _ ih => exact ih.mark
  | synchronise _ hsync ih => exact ih.of_synchronise hsync

theorem Reachable.valid (hg : Reachable g) : g.Valid := hg.retractable.valid

theorem Reachable.goBack (hg : Reachable g) {target : Nat} (htarget : target < g.checkpoint) :
    Reachable ((GraphVar.synchronise target).after g) :=
  .synchronise hg (hg.retractable.synchronise_after htarget)

end GraphVar

end GraphInterval
