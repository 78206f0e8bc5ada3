import GraphInterval.Proofs.GraphVar.Reachable

/-!
# The log as the difference of the bounds

The log of a graph variable tells exactly how its bounds differ from those it
was created with, and tells every node and every edge at most once.  The shapes
of the bounds are a function of the initial bounds and of the log
(`boundsAfter`).  A change appends an event that decides something undecided,
and taking the newest event back leads to the bounds that belong to the rest of
the log, because no other event is about the same node or edge.
-/

namespace GraphInterval

/-- The event is about the given edge, in one of its orders if it has no direction. -/
def Event.DecidesEdge (directed : Bool) (x y : Nat) : Event → Prop
  | .edgeEnforced a b | .edgeRemoved a b => Shape.SameEdge directed a b x y
  | .nodeEnforced _ | .nodeRemoved _ => False

/-- The event is about the given node itself. -/
def Event.DecidesNode (v : Nat) : Event → Prop
  | .nodeEnforced w | .nodeRemoved w => w = v
  | .edgeEnforced _ _ | .edgeRemoved _ _ => False

theorem Shape.SameEdge.symm {d : Bool} {a b x y : Nat} (h : Shape.SameEdge d a b x y) :
    Shape.SameEdge d x y a b := by
  rcases h with ⟨rfl, rfl⟩ | ⟨hd, rfl, rfl⟩
  · exact .inl ⟨rfl, rfl⟩
  · exact .inr ⟨hd, rfl, rfl⟩

theorem Shape.IsGraph.sameEdge {d : Bool} {H : Shape} (hH : H.IsGraph d) {a b x y : Nat}
    (hsame : Shape.SameEdge d a b x y) (hab : H.edge a b) : H.edge x y := by
  rcases hsame with ⟨rfl, rfl⟩ | ⟨hd, rfl, rfl⟩
  · exact hab
  · exact hH.symm hd hab

namespace GraphVar

variable {s g g' : GraphVar} {l : List Event} {e : Event}

/-! ### What one event does to the bounds -/

/-- The pair of bounds after an event. -/
def applyShapes (d : Bool) : Event → Shape × Shape → Shape × Shape
  | .edgeEnforced a b, (L, U) => (L.insertEdge d a b, U)
  | .edgeRemoved a b, (L, U) => (L, U.eraseEdge d a b)
  | .nodeEnforced v, (L, U) => (L.insertNode v, U)
  | .nodeRemoved v, (L, U) => (L, U.eraseNode v)

/-- The event decides what is undecided between two bounds: an edge after its endpoints, the
removal of a node after the removal of its edges. -/
def Decides (L U : Shape) : Event → Prop
  | .edgeEnforced a b => U.edge a b ∧ ¬ L.edge a b ∧ L.node a ∧ L.node b
  | .edgeRemoved a b => U.edge a b ∧ ¬ L.edge a b
  | .nodeEnforced v => U.node v ∧ ¬ L.node v
  | .nodeRemoved v => U.node v ∧ ¬ L.node v ∧ ∀ x, ¬ U.edge v x ∧ ¬ U.edge x v

/-- Every change appends the event that describes it. -/
theorem Change.applyShapes (hg : g.Valid) (h : Change g g') :
    ∃ e, g'.events = g.events ++ [e] ∧ Decides g.lower.shape g.upper.shape e ∧
      (g'.lower.shape, g'.upper.shape) =
        GraphVar.applyShapes g.directed e (g.lower.shape, g.upper.shape) := by
  cases h with
  | @includeNode v hpotential hnot =>
      have hv : v < g.lower.order := hg.order_eq ▸ hg.upper.lt_of_hasNode hpotential
      refine ⟨.nodeEnforced v, events_record _ _, ⟨hpotential, ne_true_of_eq_false hnot⟩, ?_⟩
      exact Prod.ext (Graph.shape_addNode hg.lower hv) rfl
  | @includeEdge a b hpotential hnot ha hb =>
      have hshape := Graph.shape_addEdge hg.lower (hg.lower.lt_of_hasNode ha)
        (hg.lower.lt_of_hasNode hb)
      rw [hg.directed_eq] at hshape
      exact ⟨.edgeEnforced a b, events_record _ _, ⟨hpotential, ne_true_of_eq_false hnot, ha, hb⟩,
        Prod.ext hshape rfl⟩
  | @excludeEdge a b hpotential hnot =>
      exact ⟨.edgeRemoved a b, events_record _ _, ⟨hpotential, ne_true_of_eq_false hnot⟩,
        Prod.ext rfl (Graph.shape_removeEdge hg.upper a b)⟩
  | @excludeNode v hpotential hnot hisolated =>
      refine ⟨.nodeRemoved v, events_record _ _, ⟨hpotential, ne_true_of_eq_false hnot, ?_⟩,
        Prod.ext rfl (Graph.shape_eraseNode hg.upper v)⟩
      exact fun x => ⟨ne_true_of_eq_false (hisolated x).1, ne_true_of_eq_false (hisolated x).2⟩

/-- Taking a decision back restores the bounds before it. -/
theorem undoShapes_applyShapes {d : Bool} {L U : Shape} (hL : L.IsGraph d) (hU : U.IsGraph d)
    (he : Decides L U e) : undoShapes d e (applyShapes d e (L, U)) = (L, U) := by
  cases e with
  | edgeEnforced a b =>
      obtain ⟨-, hnot, ha, hb⟩ := he
      refine Prod.ext (Shape.eraseEdge_insertEdge ha hb fun x y hsame hxy => hnot ?_) rfl
      exact hL.sameEdge hsame.symm hxy
  | edgeRemoved a b =>
      obtain ⟨hab, -⟩ := he
      refine Prod.ext rfl (Shape.insertEdge_eraseEdge (hU.source hab) (hU.target hab) ?_)
      exact fun x y hsame => hU.sameEdge hsame hab
  | nodeEnforced v => exact Prod.ext (Shape.eraseNode_insertNode he.2) rfl
  | nodeRemoved v => exact Prod.ext rfl (Shape.insertNode_eraseNode he.1)

/-- A decision between graphs leads to graphs. -/
theorem Decides.isGraph {d : Bool} {L U : Shape} (hL : L.IsGraph d) (hU : U.IsGraph d)
    (he : Decides L U e) :
    (applyShapes d e (L, U)).1.IsGraph d ∧ (applyShapes d e (L, U)).2.IsGraph d := by
  cases e with
  | edgeEnforced a b =>
      refine ⟨⟨?_, ?_, ?_⟩, hU⟩
      · rintro x y ((⟨rfl, rfl⟩ | ⟨-, rfl, rfl⟩) | hxy)
        · exact .inl rfl
        · exact .inr (.inl rfl)
        · exact .inr (.inr (hL.source hxy))
      · rintro x y ((⟨rfl, rfl⟩ | ⟨-, rfl, rfl⟩) | hxy)
        · exact .inr (.inl rfl)
        · exact .inl rfl
        · exact .inr (.inr (hL.target hxy))
      · rintro hd x y (hsame | hxy)
        · exact .inl (hsame.trans (.inr ⟨hd, rfl, rfl⟩))
        · exact .inr (hL.symm hd hxy)
  | edgeRemoved a b =>
      refine ⟨hL, fun hxy => hU.source hxy.2, fun hxy => hU.target hxy.2, ?_⟩
      rintro hd x y ⟨hother, hxy⟩
      exact ⟨fun hsame => hother (hsame.trans (.inr ⟨hd, rfl, rfl⟩)), hU.symm hd hxy⟩
  | nodeEnforced v =>
      exact ⟨⟨fun hxy => .inr (hL.source hxy), fun hxy => .inr (hL.target hxy), hL.symm⟩, hU⟩
  | nodeRemoved v =>
      obtain ⟨-, -, hisolated⟩ := he
      refine ⟨hL, fun hxy => ⟨?_, hU.source hxy⟩, fun hxy => ⟨?_, hU.target hxy⟩, hU.symm⟩
      · rintro rfl
        exact (hisolated _).1 hxy
      · rintro rfl
        exact (hisolated _).2 hxy

/-! ### The bounds that belong to a log -/

/-- The edge is enforced by one of the events. -/
def EnforcedIn (d : Bool) (l : List Event) (x y : Nat) : Prop :=
  ∃ a b, Event.edgeEnforced a b ∈ l ∧ Shape.SameEdge d a b x y

/-- The edge is removed by one of the events. -/
def RemovedIn (d : Bool) (l : List Event) (x y : Nat) : Prop :=
  ∃ a b, Event.edgeRemoved a b ∈ l ∧ Shape.SameEdge d a b x y

/-- What was mandatory and what the events enforce. -/
def lowerAfter (s : GraphVar) (l : List Event) : Shape where
  node v := s.isMandatoryNode v = true ∨ Event.nodeEnforced v ∈ l
  edge x y := s.isMandatory x y = true ∨ EnforcedIn s.directed l x y

/-- What was possible and what the events do not remove. -/
def upperAfter (s : GraphVar) (l : List Event) : Shape where
  node v := s.isPotentialNode v = true ∧ Event.nodeRemoved v ∉ l
  edge x y := s.isPotential x y = true ∧ ¬ RemovedIn s.directed l x y

/-- The event decides something that the others leave undecided. -/
def Follows (s : GraphVar) (l : List Event) (e : Event) : Prop :=
  Decides (s.lowerAfter l) (s.upperAfter l) e

/-- Every event follows those before it. -/
def Logs (s : GraphVar) (l : List Event) : Prop :=
  ∀ before e after, l = before ++ e :: after → s.Follows before e

theorem Logs.left {l' : List Event} (h : s.Logs (l ++ l')) : s.Logs l := by
  intro before e after heq
  apply h before e (after ++ l')
  rw [heq, List.append_assoc, List.cons_append]

theorem Logs.snoc (h : s.Logs l) (he : s.Follows l e) : s.Logs (l ++ [e]) := by
  intro before e' after heq
  rcases List.eq_nil_or_concat after with rfl | ⟨after, last, rfl⟩
  · obtain ⟨rfl, hsame⟩ := List.append_inj' heq rfl
    obtain rfl : e = e' := List.head_eq_of_cons_eq hsame
    exact he
  · have hcut : l ++ [e] = (before ++ e' :: after) ++ [last] := by
      rw [heq, List.concat_eq_append, List.append_assoc, List.cons_append]
    exact h before e' after (List.append_inj' hcut rfl).1

theorem Logs.last (h : s.Logs (l ++ [e])) : s.Follows l e := h l e [] rfl

theorem enforcedIn_append {d : Bool} {x y : Nat} :
    EnforcedIn d (l ++ [e]) x y ↔ EnforcedIn d l x y ∨
      ∃ a b, e = .edgeEnforced a b ∧ Shape.SameEdge d a b x y := by
  simp only [EnforcedIn, List.mem_append, List.mem_singleton]
  grind

theorem removedIn_append {d : Bool} {x y : Nat} :
    RemovedIn d (l ++ [e]) x y ↔ RemovedIn d l x y ∨
      ∃ a b, e = .edgeRemoved a b ∧ Shape.SameEdge d a b x y := by
  simp only [RemovedIn, List.mem_append, List.mem_singleton]
  grind

/-- The bounds that belong to a log change with the log as with an event. -/
theorem shapes_append (h : s.Follows l e) :
    (s.lowerAfter (l ++ [e]), s.upperAfter (l ++ [e])) =
      GraphVar.applyShapes s.directed e (s.lowerAfter l, s.upperAfter l) := by
  refine Prod.ext (Shape.ext_iff'.mpr ⟨fun v => ?_, fun x y => ?_⟩)
    (Shape.ext_iff'.mpr ⟨fun v => ?_, fun x y => ?_⟩)
  · have hnode : (s.lowerAfter (l ++ [e])).node v ↔
        (s.lowerAfter l).node v ∨ e = .nodeEnforced v := by
      simp only [lowerAfter, List.mem_append, List.mem_singleton, or_assoc, eq_comm]
    cases e with
    | edgeEnforced a b =>
      obtain ⟨-, -, ha, hb⟩ := h
      simp only [hnode, GraphVar.applyShapes, Shape.insertEdge]
      grind
    | nodeEnforced w =>
      simp only [hnode, GraphVar.applyShapes, Shape.insertNode, Event.nodeEnforced.injEq]
      grind
    | edgeRemoved | nodeRemoved => simp [hnode, GraphVar.applyShapes]
  · have hedge : (s.lowerAfter (l ++ [e])).edge x y ↔ (s.lowerAfter l).edge x y ∨
        ∃ a b, e = .edgeEnforced a b ∧ Shape.SameEdge s.directed a b x y := by
      simp only [lowerAfter, enforcedIn_append, or_assoc]
    cases e with
    | edgeEnforced a b =>
      simp only [hedge, GraphVar.applyShapes, Shape.insertEdge, Event.edgeEnforced.injEq]
      grind
    | edgeRemoved | nodeEnforced | nodeRemoved =>
      simp [hedge, GraphVar.applyShapes, Shape.insertNode]
  · have hnode : (s.upperAfter (l ++ [e])).node v ↔
        (s.upperAfter l).node v ∧ e ≠ .nodeRemoved v := by
      simp only [upperAfter, List.mem_append, List.mem_singleton, not_or, and_assoc, ne_eq,
        eq_comm]
    cases e with
    | nodeRemoved w =>
      simp only [hnode, GraphVar.applyShapes, Shape.eraseNode, ne_eq, Event.nodeRemoved.injEq]
      grind
    | edgeEnforced | edgeRemoved | nodeEnforced =>
      simp [hnode, GraphVar.applyShapes, Shape.eraseEdge]
  · have hedge : (s.upperAfter (l ++ [e])).edge x y ↔ (s.upperAfter l).edge x y ∧
        ¬ ∃ a b, e = .edgeRemoved a b ∧ Shape.SameEdge s.directed a b x y := by
      simp only [upperAfter, removedIn_append, not_or, and_assoc]
    cases e with
    | edgeRemoved a b =>
      simp only [hedge, GraphVar.applyShapes, Shape.eraseEdge, Event.edgeRemoved.injEq]
      grind
    | edgeEnforced | nodeEnforced | nodeRemoved =>
      simp [hedge, GraphVar.applyShapes, Shape.eraseNode]

theorem lowerAfter_nil (s : GraphVar) : s.lowerAfter [] = s.lower.shape := by
  rw [Shape.ext_iff']
  simp [lowerAfter, EnforcedIn, Graph.shape, isMandatoryNode, isMandatory]

theorem upperAfter_nil (s : GraphVar) : s.upperAfter [] = s.upper.shape := by
  rw [Shape.ext_iff']
  simp [upperAfter, RemovedIn, Graph.shape, isPotentialNode, isPotential]

theorem Logs.isGraph (hs : s.Valid) (h : s.Logs l) :
    (s.lowerAfter l).IsGraph s.directed ∧ (s.upperAfter l).IsGraph s.directed := by
  induction l using List.reverseRecOn with
  | nil =>
    rw [lowerAfter_nil, upperAfter_nil]
    exact ⟨hs.admits_lower.isGraph, hs.admits_upper.isGraph⟩
  | append_singleton l e ih =>
    obtain ⟨hL, hU⟩ := ih h.left
    have hgraphs := Decides.isGraph hL hU h.last
    rw [← shapes_append h.last] at hgraphs
    exact hgraphs

/-! ### Each node and each edge once -/

/-- An edge that an event decides was undecided before it. -/
theorem Follows.edge (he : s.Follows l e) (hs : s.Valid) (hl : s.Logs l) {x y : Nat}
    (hxy : e.DecidesEdge s.directed x y) :
    (s.upperAfter l).edge x y ∧ ¬ (s.lowerAfter l).edge x y := by
  obtain ⟨hL, hU⟩ := hl.isGraph hs
  have hundecided : ∀ {a b}, Shape.SameEdge s.directed a b x y → (s.upperAfter l).edge a b →
      ¬ (s.lowerAfter l).edge a b → (s.upperAfter l).edge x y ∧ ¬ (s.lowerAfter l).edge x y :=
    fun hsame hab hnot => ⟨hU.sameEdge hsame hab, fun h => hnot (hL.sameEdge hsame.symm h)⟩
  cases e with
  | edgeEnforced a b => exact hundecided hxy he.1 he.2.1
  | edgeRemoved a b => exact hundecided hxy he.1 he.2
  | nodeEnforced | nodeRemoved => exact hxy.elim

/-- A node that an event decides was undecided before it. -/
theorem Follows.node (he : s.Follows l e) {v : Nat} (hv : e.DecidesNode v) :
    (s.upperAfter l).node v ∧ ¬ (s.lowerAfter l).node v := by
  cases e with
  | nodeEnforced w => exact hv ▸ he
  | nodeRemoved w => exact hv ▸ ⟨he.1, he.2.1⟩
  | edgeEnforced | edgeRemoved => exact hv.elim

/-- What an event of the log is about is decided afterwards. -/
theorem decided_of_mem (he : e ∈ l) :
    (∀ x y, e.DecidesEdge s.directed x y →
      (s.upperAfter l).edge x y → (s.lowerAfter l).edge x y) ∧
    ∀ v, e.DecidesNode v → (s.upperAfter l).node v → (s.lowerAfter l).node v := by
  cases e with
  | edgeEnforced a b =>
    exact ⟨fun x y hxy _ => .inr ⟨a, b, he, hxy⟩, fun v hv => hv.elim⟩
  | edgeRemoved a b =>
    exact ⟨fun x y hxy hU => absurd ⟨a, b, he, hxy⟩ hU.2, fun v hv => hv.elim⟩
  | nodeEnforced w => exact ⟨fun x y hxy => hxy.elim, fun v hv _ => .inr (hv ▸ he)⟩
  | nodeRemoved w => exact ⟨fun x y hxy => hxy.elim, fun v hv hU => absurd (hv ▸ he) hU.2⟩

/-- Two events are about different edges and different nodes. -/
def Apart (d : Bool) (e e' : Event) : Prop :=
  (∀ x y, e.DecidesEdge d x y → ¬ e'.DecidesEdge d x y) ∧
    ∀ v, e.DecidesNode v → ¬ e'.DecidesNode v

theorem Logs.pairwise (hs : s.Valid) (h : s.Logs l) : l.Pairwise (Apart s.directed) := by
  induction l using List.reverseRecOn with
  | nil => exact .nil
  | append_singleton l e ih =>
    refine List.pairwise_append.mpr ⟨ih h.left, List.pairwise_singleton _ _, ?_⟩
    intro e' he' e'' he''
    rw [List.mem_singleton.mp he'']
    obtain ⟨hedge, hnode⟩ := decided_of_mem (s := s) he'
    constructor
    · intro x y hxy hxy'
      obtain ⟨hU, hL⟩ := h.last.edge hs h.left hxy'
      exact hL (hedge x y hxy hU)
    · intro v hv hv'
      obtain ⟨hU, hL⟩ := h.last.node hv'
      exact hL (hnode v hv hU)

/-! ### Variables and their logs -/

/-- The bounds of the variable are those that belong to a log. -/
structure Tracks (s : GraphVar) (l : List Event) (g : GraphVar) : Prop where
  valid : g.Valid
  order : g.order = s.order
  directed : g.directed = s.directed
  logs : s.Logs l
  shapes : (g.lower.shape, g.upper.shape) = (s.lowerAfter l, s.upperAfter l)

theorem Tracks.start (hs : s.Valid) : s.Tracks [] s where
  valid := hs
  order := rfl
  directed := rfl
  logs before e after heq := by simp at heq
  shapes := by rw [lowerAfter_nil, upperAfter_nil]

/-- A change extends the log by what it decides. -/
theorem Tracks.change (h : s.Tracks g.events g) (hchange : Change g g') :
    s.Tracks g'.events g' := by
  obtain ⟨e, hevents, hdecides, hshapes⟩ := hchange.applyShapes h.valid
  have hfollows : s.Follows g.events e := by
    have hlower := congrArg Prod.fst h.shapes
    have hupper := congrArg Prod.snd h.shapes
    simp only at hlower hupper
    rwa [hlower, hupper] at hdecides
  rw [hevents]
  obtain ⟨horder, hdirected⟩ := hchange.order
  refine ⟨hchange.valid h.valid, horder.trans h.order, hdirected.trans h.directed,
    h.logs.snoc hfollows, ?_⟩
  rw [hshapes, shapes_append hfollows, h.directed, h.shapes]

theorem Tracks.narrows (h : s.Tracks g.events g) (hnarrows : Narrows g g') :
    s.Tracks g'.events g' := by
  induction hnarrows with
  | refl => exact h
  | tail _ hchange ih => exact ih.change hchange

/-- Taking the newest event back leads to the bounds that belong to the others. -/
theorem Tracks.undo (hs : s.Valid) (h : s.Tracks (l ++ [e]) g) (he : e.Within g.order)
    (hundo : g.undo e = .ok g') : s.Tracks l g' := by
  obtain ⟨hvalid, horder, hdirected, -, hshapes⟩ := h.valid.undo he hundo
  have hlogs := h.logs.left
  obtain ⟨hL, hU⟩ := hlogs.isGraph hs
  refine ⟨hvalid, horder.trans h.order, hdirected.trans h.directed, hlogs, ?_⟩
  rw [hshapes, h.shapes, shapes_append h.logs.last, h.directed]
  exact undoShapes_applyShapes hL hU h.logs.last

/-- Any number of events is taken back, newest first. -/
theorem Tracks.foldlM_undo {undone rest : List Event} (hs : s.Valid)
    (h : s.Tracks (undone ++ rest).reverse g) (hretractable : Retractable (undone ++ rest) g)
    (hfold : undone.foldlM GraphVar.undo g = .ok g') : s.Tracks rest.reverse g' := by
  induction undone generalizing g with
  | nil =>
    cases hfold
    exact h
  | cons e undone ih =>
    obtain ⟨-, he, g₁, hundo, hrest⟩ := hretractable
    rw [List.foldlM_cons, hundo] at hfold
    rw [List.cons_append, List.reverse_cons] at h
    exact ih (h.undo hs he hundo) hrest hfold

theorem Tracks.congr {h : GraphVar} (ht : s.Tracks l g) (hgh : Agree g h) (hh : h.Valid) :
    s.Tracks l h :=
  ⟨hh, hgh.order.symm.trans ht.order, hgh.directed.symm.trans ht.directed, ht.logs,
    by rw [← hgh.lower, ← hgh.upper, ht.shapes]⟩

/-- Going back to a checkpoint leads to the bounds that belong to the log that is left. -/
theorem Tracks.synchronise {target : Nat} (hs : s.Valid) (h : s.Tracks g.events g)
    (hretractable : Retractable g.events.reverse g)
    (hsync : GraphVar.synchronise target g = .ok () g') : s.Tracks g'.events g' := by
  by_cases htarget : target < g.checkpoint
  · obtain ⟨t, hsync', -, hlog, hfold⟩ := hretractable.synchronise htarget
    rw [hsync'] at hsync
    cases hsync
    have hevents : g'.events = (g.cut target).events := by rw [events, hlog]; rfl
    have hsplit : g.events.reverse = (g.events.drop (g.lengthAt target)).reverse ++
        (g.cut target).events.reverse := by
      rw [events_cut, ← List.reverse_append, List.take_append_drop]
    have hcut := h.congr (.cut g target) (h.valid.cut target)
    rw [← List.reverse_reverse g.events, hsplit] at hcut
    rw [hsplit] at hretractable
    have hback := hcut.foldlM_undo hs
      (hretractable.congr (.cut g target) (h.valid.cut target)) hfold
    rw [List.reverse_reverse] at hback
    rwa [hevents]
  · simp [GraphVar.synchronise, Trail.synchronise,
      show ¬ target < g.log.checkpoint from htarget] at hsync

/-! ### Variables from their creation on -/

/-- The variables as they are created. -/
inductive Created : GraphVar → Prop where
  | unconstrained (n : Nat) (d : Bool) : Created (GraphVar.unconstrained n d)
  | between {n m : Nat} {d c : Bool} {lower upper : Graph} {s : GraphVar} :
      Graph.Built n d lower → Graph.Built m c upper →
      GraphVar.between? lower upper = some s → Created s

/-- The states of a variable after its creation. -/
inductive Evolves (s : GraphVar) : GraphVar → Prop where
  | refl : Evolves s s
  | mutate {g : GraphVar} (m : Mutation) : Evolves s g → Evolves s (m.run.after g)
  | mark {g : GraphVar} : Evolves s g → Evolves s g.mark
  | synchronise {g t : GraphVar} {target : Nat} : Evolves s g →
      GraphVar.synchronise target g = .ok () t → Evolves s t

theorem Created.reachable (hs : Created s) : s.Reachable := by
  cases hs with
  | unconstrained n d => exact .unconstrained n d
  | between hlower hupper h => exact .between hlower hupper h

theorem Created.events (hs : Created s) : s.events = [] := by
  cases hs with
  | unconstrained n d => rfl
  | between hlower hupper h => rw [GraphVar.events, (valid_of_between hlower hupper h).2]

theorem Evolves.reachable (hs : Created s) (h : Evolves s g) : g.Reachable := by
  induction h with
  | refl => exact hs.reachable
  | mutate m _ ih => exact .mutate m ih
  | mark _ ih => exact .mark ih
  | synchronise _ hsync ih => exact .synchronise ih hsync

/-- The reachable variables are those that were created at some time. -/
theorem reachable_iff : g.Reachable ↔ ∃ s, Created s ∧ Evolves s g := by
  constructor
  · intro h
    induction h with
    | unconstrained n d => exact ⟨_, .unconstrained n d, .refl⟩
    | between hlower hupper h => exact ⟨_, .between hlower hupper h, .refl⟩
    | mutate m _ ih =>
      obtain ⟨s, hs, h⟩ := ih
      exact ⟨s, hs, .mutate m h⟩
    | mark _ ih =>
      obtain ⟨s, hs, h⟩ := ih
      exact ⟨s, hs, .mark h⟩
    | synchronise _ hsync ih =>
      obtain ⟨s, hs, h⟩ := ih
      exact ⟨s, hs, .synchronise h hsync⟩
  · rintro ⟨s, hs, h⟩
    exact h.reachable hs

/-- Returning to a checkpoint succeeds if there is one. -/
theorem Evolves.goBack {target : Nat} (hs : Created s) (h : Evolves s g)
    (htarget : target < g.checkpoint) : Evolves s ((GraphVar.synchronise target).after g) :=
  .synchronise h ((h.reachable hs).retractable.synchronise_after htarget)

theorem Evolves.tracks (hs : Created s) (h : Evolves s g) : s.Tracks g.events g := by
  have hvalid := hs.reachable.valid
  induction h with
  | refl =>
    rw [hs.events]
    exact .start hvalid
  | mutate m _ ih => exact ih.narrows (m.narrows ih.valid)
  | mark h ih => exact ih.congr ⟨rfl, rfl, rfl, rfl⟩ (h.reachable hs).retractable.mark.valid
  | synchronise h hsync ih => exact ih.synchronise hvalid (h.reachable hs).retractable hsync

/-- The log of a variable accounts for the way from some initial bounds to the current ones. -/
structure Accounts (s g : GraphVar) : Prop where
  kind : g.order = s.order ∧ g.directed = s.directed
  /-- The lower bound is the initial one and what the log enforces. -/
  mandatoryNode : ∀ v, g.isMandatoryNode v = true ↔
    s.isMandatoryNode v = true ∨ Event.nodeEnforced v ∈ g.events
  mandatory : ∀ x y, g.isMandatory x y = true ↔
    s.isMandatory x y = true ∨ EnforcedIn s.directed g.events x y
  /-- The upper bound is the initial one without what the log removes. -/
  potentialNode : ∀ v, g.isPotentialNode v = true ↔
    s.isPotentialNode v = true ∧ Event.nodeRemoved v ∉ g.events
  potential : ∀ x y, g.isPotential x y = true ↔
    s.isPotential x y = true ∧ ¬ RemovedIn s.directed g.events x y
  /-- The events are about what was undecided at first. -/
  undecidedEdge : ∀ e ∈ g.events, ∀ x y, e.DecidesEdge s.directed x y →
    s.isPotential x y = true ∧ ¬ s.isMandatory x y = true
  undecidedNode : ∀ e ∈ g.events, ∀ v, e.DecidesNode v →
    s.isPotentialNode v = true ∧ ¬ s.isMandatoryNode v = true
  once : g.events.Pairwise (Apart s.directed)
  endpoints : ∀ before after a b, g.events = before ++ Event.edgeEnforced a b :: after →
    ∀ v, v = a ∨ v = b → s.isMandatoryNode v = true ∨ Event.nodeEnforced v ∈ before
  incident : ∀ before after v, g.events = before ++ Event.nodeRemoved v :: after →
    ∀ x y, x = v ∨ y = v → s.isPotential x y = true → RemovedIn s.directed before x y

/-- Whatever happened to a variable since its creation, its log accounts for its bounds. -/
theorem Evolves.accounts (hs : Created s) (h : Evolves s g) : s.Accounts g := by
  have hvalid := hs.reachable.valid
  have htracks := h.tracks hs
  have hlogs := htracks.logs
  obtain ⟨hlower, hupper⟩ := Prod.mk.inj htracks.shapes
  rw [Shape.ext_iff'] at hlower hupper
  have hearlier : ∀ before e after, g.events = before ++ e :: after → s.Logs before := by
    intro before e after heq
    rw [heq] at hlogs
    exact hlogs.left
  constructor
  case kind => exact ⟨htracks.order, htracks.directed⟩
  case mandatoryNode => exact hlower.1
  case mandatory => exact hlower.2
  case potentialNode => exact hupper.1
  case potential => exact hupper.2
  case undecidedEdge =>
    intro e he x y hxy
    obtain ⟨before, after, heq⟩ := List.append_of_mem he
    obtain ⟨hU, hL⟩ := (hlogs before e after heq).edge hvalid (hearlier before e after heq) hxy
    exact ⟨hU.1, fun h => hL (.inl h)⟩
  case undecidedNode =>
    intro e he v hv
    obtain ⟨before, after, heq⟩ := List.append_of_mem he
    obtain ⟨hU, hL⟩ := (hlogs before e after heq).node hv
    exact ⟨hU.1, fun h => hL (.inl h)⟩
  case once => exact hlogs.pairwise hvalid
  case endpoints =>
    rintro before after a b heq v (rfl | rfl)
    · exact (hlogs before _ after heq).2.2.1
    · exact (hlogs before _ after heq).2.2.2
  case incident =>
    intro before after v heq x y hv hxy
    obtain ⟨-, -, hisolated⟩ := hlogs before _ after heq
    by_contra hnot
    rcases hv with rfl | rfl
    · exact (hisolated y).1 ⟨hxy, hnot⟩
    · exact (hisolated x).2 ⟨hxy, hnot⟩

/-- An enforced edge, a removed node whose edges go first, and a return to a checkpoint. -/
theorem Evolves.accounts_returned :
    let s := GraphVar.unconstrained 4 false
    let marked := ((Mutation.enforceEdge 0 1).run.after s).mark
    let g := (GraphVar.synchronise 0).after ((Mutation.removeNode 3).run.after marked)
    let t := (Mutation.removeNode 2).run.after g
    Created s ∧ Evolves s t ∧ t.events =
        [.nodeEnforced 0, .nodeEnforced 1, .edgeEnforced 0 1, .edgeRemoved 2 0, .edgeRemoved 2 1,
          .edgeRemoved 2 3, .nodeRemoved 2] ∧
      s.Accounts t := by
  intro s marked g t
  have hs : Created s := .unconstrained 4 false
  have hlt : 0 < ((Mutation.removeNode 3).run.after marked).checkpoint := by decide +kernel
  have hg : Evolves s g := .goBack hs (.mutate _ (.mark (.mutate _ .refl))) hlt
  have ht : Evolves s t := .mutate _ hg
  exact ⟨hs, ht, by decide +kernel, ht.accounts hs⟩

end GraphVar

end GraphInterval
