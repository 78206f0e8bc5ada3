import GraphInterval.GraphVar.Basic
import GraphInterval.Proofs.Attempt
import GraphInterval.Proofs.Graph.Compare
import Mathlib.Logic.Relation

/-!
# Narrowing a graph variable

A graph variable is valid if its bounds are valid graphs of one kind over one
universe and the lower one is a subgraph of the upper one.  Its domain is the
set of the shapes between the bounds.  Every mutation is a sequence of four
primitive changes, each of which decides one node or edge and logs one event;
what holds of a primitive change therefore holds of every mutation and of
every propagation.
-/

namespace GraphInterval

namespace GraphVar

/-- The bounds are valid and nested. -/
structure Valid (g : GraphVar) : Prop where
  lower : g.lower.Valid
  upper : g.upper.Valid
  order_eq : g.lower.order = g.upper.order
  directed_eq : g.lower.directed = g.upper.directed
  le : g.lower.shape ≤ g.upper.shape

/-- A graph belongs to the domain of the variable. -/
structure Admits (g : GraphVar) (H : Shape) : Prop where
  isGraph : H.IsGraph g.directed
  lower_le : g.lower.shape ≤ H
  le_upper : H ≤ g.upper.shape

variable {g g' : GraphVar}

/-- The bounds themselves are graphs of the domain. -/
theorem Valid.admits_lower (hg : g.Valid) : g.Admits g.lower.shape :=
  ⟨by
    have := hg.lower.isGraph
    rwa [hg.directed_eq] at this, Shape.le_refl _, hg.le⟩

theorem Valid.admits_upper (hg : g.Valid) : g.Admits g.upper.shape :=
  ⟨hg.upper.isGraph, hg.le, Shape.le_refl _⟩

theorem Valid.isPotential (hg : g.Valid) {a b : Nat} (h : g.isMandatory a b = true) :
    g.isPotential a b = true :=
  hg.le.2 a b h

theorem Valid.isPotentialNode (hg : g.Valid) {v : Nat} (h : g.isMandatoryNode v = true) :
    g.isPotentialNode v = true :=
  hg.le.1 v h

theorem Valid.lt_order (hg : g.Valid) {a b : Nat} (h : g.isPotential a b = true) :
    a < g.order ∧ b < g.order :=
  hg.upper.lt_of_hasEdge h

/-! ### Primitive changes -/

/-- A node becomes mandatory. -/
def includeNode (g : GraphVar) (v : Nat) : GraphVar :=
  { g with lower := g.lower.addNode v }.record (.nodeEnforced v)

/-- An edge between mandatory nodes becomes mandatory. -/
def includeEdge (g : GraphVar) (a b : Nat) : GraphVar :=
  { g with lower := g.lower.addEdge a b }.record (.edgeEnforced a b)

/-- An edge stops being possible. -/
def excludeEdge (g : GraphVar) (a b : Nat) : GraphVar :=
  { g with upper := g.upper.removeEdge a b }.record (.edgeRemoved a b)

/-- A node without edges stops being possible. -/
def excludeNode (g : GraphVar) (v : Nat) : GraphVar :=
  { g with upper := { g.upper with nodes := g.upper.nodes.erase v } }.record (.nodeRemoved v)

@[simp]
theorem lower_includeNode (g : GraphVar) (v : Nat) :
    (g.includeNode v).lower = g.lower.addNode v := rfl

@[simp]
theorem lower_includeEdge (g : GraphVar) (a b : Nat) :
    (g.includeEdge a b).lower = g.lower.addEdge a b := rfl

@[simp]
theorem upper_includeEdge (g : GraphVar) (a b : Nat) :
    (g.includeEdge a b).upper = g.upper := rfl

@[simp]
theorem upper_excludeEdge (g : GraphVar) (a b : Nat) :
    (g.excludeEdge a b).upper = g.upper.removeEdge a b := rfl

@[simp]
theorem upper_excludeNode (g : GraphVar) (v : Nat) :
    (g.excludeNode v).upper = { g.upper with nodes := g.upper.nodes.erase v } := rfl

/-- One node or edge is decided and logged. -/
inductive Change (g : GraphVar) : GraphVar → Prop where
  | includeNode {v} : g.isPotentialNode v = true → g.isMandatoryNode v = false →
      Change g (g.includeNode v)
  | includeEdge {a b} : g.isPotential a b = true → g.isMandatory a b = false →
      g.isMandatoryNode a = true → g.isMandatoryNode b = true → Change g (g.includeEdge a b)
  | excludeEdge {a b} : g.isPotential a b = true → g.isMandatory a b = false →
      Change g (g.excludeEdge a b)
  | excludeNode {v} : g.isPotentialNode v = true → g.isMandatoryNode v = false →
      (∀ x, g.isPotential v x = false ∧ g.isPotential x v = false) →
      Change g (g.excludeNode v)

/-- Any number of nodes and edges are decided one after the other. -/
def Narrows : GraphVar → GraphVar → Prop := Relation.ReflTransGen Change

theorem isMandatory_includeEdge (hg : g.Valid) {a b : Nat} (hab : g.isPotential a b = true)
    (x y : Nat) :
    (g.includeEdge a b).isMandatory x y = true ↔
      Shape.SameEdge g.directed a b x y ∨ g.isMandatory x y = true := by
  obtain ⟨ha, hb⟩ := hg.lt_order hab
  have horder := hg.order_eq
  have := Graph.hasEdge_addEdge hg.lower (a := a) (b := b) (horder ▸ ha) (horder ▸ hb) x y
  rwa [hg.directed_eq] at this

theorem isPotential_excludeEdge (hg : g.Valid) (a b x y : Nat) :
    (g.excludeEdge a b).isPotential x y = true ↔
      ¬ Shape.SameEdge g.directed a b x y ∧ g.isPotential x y = true :=
  Graph.hasEdge_removeEdge hg.upper a b x y

theorem Valid.isMandatory_sameEdge (hg : g.Valid) {a b x y : Nat}
    (h : Shape.SameEdge g.directed a b x y) : g.isMandatory x y = g.isMandatory a b :=
  hg.lower.sameEdge (hg.directed_eq ▸ h)

theorem Valid.isPotential_sameEdge (hg : g.Valid) {a b x y : Nat}
    (h : Shape.SameEdge g.directed a b x y) : g.isPotential x y = g.isPotential a b :=
  hg.upper.sameEdge h

theorem Change.valid (hg : g.Valid) (h : Change g g') : g'.Valid := by
  have horder := hg.order_eq
  cases h with
  | @includeNode v hpotential hnot =>
      have hv : v < g.lower.order := horder ▸ hg.upper.lt_of_hasNode hpotential
      refine ⟨hg.lower.addNode v, hg.upper, by simpa [GraphVar.includeNode, record],
        hg.directed_eq, fun x hx => ?_, hg.le.2⟩
      obtain rfl | hx := (Graph.hasNode_addNode hg.lower hv x).mp hx
      · exact hpotential
      · exact hg.le.1 x hx
  | @includeEdge a b hpotential hnot ha hb =>
      have hla : a < g.lower.order := hg.lower.lt_of_hasNode ha
      have hlb : b < g.lower.order := hg.lower.lt_of_hasNode hb
      refine ⟨hg.lower.addEdge hla hlb, hg.upper, by simpa [GraphVar.includeEdge, record],
        by simpa [GraphVar.includeEdge, record] using hg.directed_eq,
        fun x hx => ?_, fun x y hxy => ?_⟩
      · obtain rfl | rfl | hx := (Graph.hasNode_addEdge hg.lower hla hlb x).mp hx
        · exact hg.le.1 x ha
        · exact hg.le.1 x hb
        · exact hg.le.1 x hx
      · obtain hsame | hxy := (isMandatory_includeEdge hg hpotential x y).mp hxy
        · exact (hg.isPotential_sameEdge hsame).trans hpotential
        · exact hg.le.2 x y hxy
  | @excludeEdge a b hpotential hnot =>
      refine ⟨hg.lower, hg.upper.removeEdge a b, by simpa [GraphVar.excludeEdge, record],
        by simpa [GraphVar.excludeEdge, record] using hg.directed_eq,
        fun x hx => ?_, fun x y hxy => ?_⟩
      · have hx' : (g.upper.removeEdge a b).hasNode x = true := by
          rw [Graph.hasNode_removeEdge]
          exact hg.le.1 x hx
        exact hx'
      · refine (isPotential_excludeEdge hg a b x y).mpr ⟨fun hsame => ?_, hg.le.2 x y hxy⟩
        have hxy' : g.isMandatory x y = true := hxy
        simp [hg.isMandatory_sameEdge hsame, hnot] at hxy'
  | @excludeNode v hpotential hnot hisolated =>
      have heq : ({ g.upper with nodes := g.upper.nodes.erase v } : Graph).order =
          g.upper.order := SparseSet.capacity_erase _ _
      refine ⟨hg.lower, hg.upper.eraseNode hisolated, horder.trans heq.symm,
        hg.directed_eq, fun x hx => ?_, hg.le.2⟩
      refine (Graph.hasNode_erase hg.upper v x).mpr ⟨fun hxv => ?_, hg.le.1 x hx⟩
      subst hxv
      have hx' : g.isMandatoryNode x = true := hx
      simp [hnot] at hx'

theorem Change.order (h : Change g g') : g'.order = g.order ∧ g'.directed = g.directed := by
  cases h with
  | includeNode | includeEdge => exact ⟨rfl, rfl⟩
  | excludeEdge => exact ⟨Graph.order_removeEdge _ _ _, Graph.directed_removeEdge _ _ _⟩
  | excludeNode => exact ⟨SparseSet.capacity_erase _ _, rfl⟩

/-- A change only adds to the lower bound and takes from the upper one. -/
theorem Change.le (hg : g.Valid) (h : Change g g') :
    g.lower.shape ≤ g'.lower.shape ∧ g'.upper.shape ≤ g.upper.shape := by
  cases h with
  | @includeNode v hpotential hnot =>
      have hv : v < g.lower.order := hg.order_eq ▸ hg.upper.lt_of_hasNode hpotential
      exact ⟨⟨fun x hx => (Graph.hasNode_addNode hg.lower hv x).mpr (.inr hx),
        fun _ _ hab => hab⟩, Shape.le_refl _⟩
  | @includeEdge a b hpotential hnot ha hb =>
      refine ⟨⟨fun x hx => ?_, fun x y hxy => ?_⟩, Shape.le_refl _⟩
      · exact (Graph.hasNode_addEdge hg.lower (hg.lower.lt_of_hasNode ha)
          (hg.lower.lt_of_hasNode hb) x).mpr (.inr (.inr hx))
      · exact (isMandatory_includeEdge hg hpotential x y).mpr (.inr hxy)
  | @excludeEdge a b hpotential hnot =>
      refine ⟨Shape.le_refl _, fun x hx => ?_, fun x y hxy => ?_⟩
      · have hx' : (g.upper.removeEdge a b).hasNode x = true := hx
        rwa [Graph.hasNode_removeEdge] at hx'
      · exact ((isPotential_excludeEdge hg a b x y).mp hxy).2
  | @excludeNode v hpotential hnot hisolated =>
      exact ⟨Shape.le_refl _, fun x hx => ((Graph.hasNode_erase hg.upper v x).mp hx).2,
        fun _ _ hxy => hxy⟩

theorem Narrows.preserves (h : Narrows g g') (hg : g.Valid) :
    g'.Valid ∧ g'.order = g.order ∧ g'.directed = g.directed ∧
      g.lower.shape ≤ g'.lower.shape ∧ g'.upper.shape ≤ g.upper.shape := by
  induction h with
  | refl => exact ⟨hg, rfl, rfl, Shape.le_refl _, Shape.le_refl _⟩
  | tail _ hchange ih =>
      obtain ⟨hvalid, horder, hdirected, hlower, hupper⟩ := ih
      have hsame := hchange.order
      have hle := hchange.le hvalid
      exact ⟨hchange.valid hvalid, hsame.1.trans horder, hsame.2.trans hdirected,
        Shape.le_trans hlower hle.1, Shape.le_trans hle.2 hupper⟩

theorem Narrows.valid (h : Narrows g g') (hg : g.Valid) : g'.Valid := (h.preserves hg).1

theorem Narrows.order (h : Narrows g g') (hg : g.Valid) : g'.order = g.order :=
  (h.preserves hg).2.1

theorem Narrows.directed (h : Narrows g g') (hg : g.Valid) : g'.directed = g.directed :=
  (h.preserves hg).2.2.1

theorem Narrows.isMandatory (h : Narrows g g') (hg : g.Valid) {a b : Nat}
    (hab : g.isMandatory a b = true) : g'.isMandatory a b = true :=
  (h.preserves hg).2.2.2.1.2 a b hab

theorem Narrows.isPotential (h : Narrows g g') (hg : g.Valid) {a b : Nat}
    (hab : g'.isPotential a b = true) : g.isPotential a b = true :=
  (h.preserves hg).2.2.2.2.2 a b hab

theorem Narrows.isMandatoryNode (h : Narrows g g') (hg : g.Valid) {v : Nat}
    (hv : g.isMandatoryNode v = true) : g'.isMandatoryNode v = true :=
  (h.preserves hg).2.2.2.1.1 v hv

theorem Narrows.isPotentialNode (h : Narrows g g') (hg : g.Valid) {v : Nat}
    (hv : g'.isPotentialNode v = true) : g.isPotentialNode v = true :=
  (h.preserves hg).2.2.2.2.1 v hv

/-- The domain shrinks. -/
theorem Narrows.admits (h : Narrows g g') (hg : g.Valid) {H : Shape} (hH : g'.Admits H) :
    g.Admits H := by
  obtain ⟨-, -, hdirected, hlower, hupper⟩ := h.preserves hg
  exact ⟨hdirected ▸ hH.isGraph, Shape.le_trans hlower hH.lower_le,
    Shape.le_trans hH.le_upper hupper⟩

/-! ### The log of a narrowing -/

@[simp]
theorem events_record (g : GraphVar) (e : Event) : (g.record e).events = g.events ++ [e] := by
  simp [record, events, Trail.push]

/-- The events tell which edges were decided on the way from one variable to
another, each edge in one of its orders. -/
structure Records (g g' : GraphVar) (news : List Event) : Prop where
  events_eq : g'.events = g.events ++ news
  delimiters_eq : g'.log.delimiters = g.log.delimiters
  enforced : ∀ x y, g'.isMandatory x y = true → g.isMandatory x y = false →
    ∃ a b, Event.edgeEnforced a b ∈ news ∧ Shape.SameEdge g.directed a b x y
  removed : ∀ x y, g.isPotential x y = true → g'.isPotential x y = false →
    ∃ a b, Event.edgeRemoved a b ∈ news ∧ Shape.SameEdge g.directed a b x y
  isMandatory : ∀ a b, Event.edgeEnforced a b ∈ news → g'.isMandatory a b = true
  isPotential : ∀ a b, Event.edgeRemoved a b ∈ news → g'.isPotential a b = false

theorem Records.refl (g : GraphVar) : Records g g [] := by
  refine ⟨by simp, rfl, ?_, ?_, ?_, ?_⟩ <;> grind

theorem sameEdge_self (d : Bool) (a b : Nat) : Shape.SameEdge d a b a b := .inl ⟨rfl, rfl⟩

theorem Change.records (hg : g.Valid) (h : Change g g') : ∃ e, Records g g' [e] := by
  cases h with
  | @includeNode v hpotential hnot =>
      refine ⟨.nodeEnforced v, events_record _ _, rfl, fun x y hxy hnot => ?_,
        fun x y hxy hnot => ?_, by simp, by simp⟩
      · exact absurd (hxy.symm.trans hnot) (by simp)
      · exact absurd (hxy.symm.trans hnot) (by simp)
  | @includeEdge a b hpotential hnot ha hb =>
      have hiff := isMandatory_includeEdge hg hpotential
      refine ⟨.edgeEnforced a b, events_record _ _, rfl, fun x y hxy hnot => ?_,
        fun x y hxy hnot => ?_, fun c d hcd => ?_, by simp⟩
      · obtain hsame | hxy := (hiff x y).mp hxy
        · exact ⟨a, b, by simp, hsame⟩
        · exact absurd (hxy.symm.trans hnot) (by simp)
      · exact absurd (hxy.symm.trans hnot) (by simp)
      · obtain ⟨rfl, rfl⟩ : c = a ∧ d = b := by simpa using hcd
        exact (hiff c d).mpr (.inl (sameEdge_self _ c d))
  | @excludeEdge a b hpotential hnot =>
      have hiff := isPotential_excludeEdge hg a b
      refine ⟨.edgeRemoved a b, events_record _ _, rfl, fun x y hxy hnot => ?_,
        fun x y hxy hnot => ?_, by simp, fun c d hcd => ?_⟩
      · exact absurd (hxy.symm.trans hnot) (by simp)
      · refine ⟨a, b, by simp, ?_⟩
        by_contra hsame
        exact absurd (((hiff x y).mpr ⟨hsame, hxy⟩).symm.trans hnot) (by simp)
      · obtain ⟨rfl, rfl⟩ : c = a ∧ d = b := by simpa using hcd
        by_contra htrue
        exact ((hiff c d).mp (by simpa using htrue)).1 (sameEdge_self _ c d)
  | @excludeNode v hpotential hnot hisolated =>
      refine ⟨.nodeRemoved v, events_record _ _, rfl, fun x y hxy hnot => ?_,
        fun x y hxy hnot => ?_, by simp, by simp⟩
      · exact absurd (hxy.symm.trans hnot) (by simp)
      · exact absurd (hxy.symm.trans hnot) (by simp)

theorem Records.trans {g₁ g₂ g₃ : GraphVar} {news news' : List Event} (hg : g₁.Valid)
    (hnarrows : Narrows g₁ g₂) (h : Records g₁ g₂ news) (hnarrows' : Narrows g₂ g₃)
    (h' : Records g₂ g₃ news') : Records g₁ g₃ (news ++ news') := by
  have hg₂ := hnarrows.valid hg
  have hdirected := hnarrows.directed hg
  refine ⟨?_, h'.delimiters_eq.trans h.delimiters_eq, fun x y hxy hnot => ?_,
    fun x y hxy hnot => ?_, fun a b hab => ?_, fun a b hab => ?_⟩
  · rw [h'.events_eq, h.events_eq, List.append_assoc]
  · cases hmiddle : g₂.isMandatory x y with
    | true =>
        obtain ⟨a, b, hmem, hsame⟩ := h.enforced x y hmiddle hnot
        exact ⟨a, b, List.mem_append_left _ hmem, hsame⟩
    | false =>
        obtain ⟨a, b, hmem, hsame⟩ := h'.enforced x y hxy hmiddle
        exact ⟨a, b, List.mem_append_right _ hmem, hdirected ▸ hsame⟩
  · cases hmiddle : g₂.isPotential x y with
    | true =>
        obtain ⟨a, b, hmem, hsame⟩ := h'.removed x y hmiddle hnot
        exact ⟨a, b, List.mem_append_right _ hmem, hdirected ▸ hsame⟩
    | false =>
        obtain ⟨a, b, hmem, hsame⟩ := h.removed x y hxy hmiddle
        exact ⟨a, b, List.mem_append_left _ hmem, hsame⟩
  · obtain hab | hab := List.mem_append.mp hab
    · exact hnarrows'.isMandatory hg₂ (h.isMandatory a b hab)
    · exact h'.isMandatory a b hab
  · obtain hab | hab := List.mem_append.mp hab
    · by_contra htrue
      have := hnarrows'.isPotential hg₂ (a := a) (b := b) (by simpa using htrue)
      simp [h.isPotential a b hab] at this
    · exact h'.isPotential a b hab

/-- The log grows by the events of the changes. -/
theorem Narrows.records (h : Narrows g g') (hg : g.Valid) : ∃ news, Records g g' news := by
  induction h with
  | refl => exact ⟨[], Records.refl g⟩
  | tail hnarrows hchange ih =>
      obtain ⟨news, hnews⟩ := ih
      obtain ⟨e, he⟩ := hchange.records (Narrows.valid hnarrows hg)
      exact ⟨news ++ [e], Records.trans hg hnarrows hnews (.single hchange) he⟩

/-! ### Mutations -/

/-- A mandatory node is as it should be; another one becomes mandatory. -/
def includeEndpoint (g : GraphVar) (v : Nat) : GraphVar :=
  if g.isMandatoryNode v then g else g.includeNode v

theorem enforceNode_eq (g : GraphVar) (v : Nat) :
    enforceNode v g =
      if g.isPotentialNode v = false then .error .wipeout g
      else if g.isMandatoryNode v = true then .ok false g
      else .ok true (g.includeNode v) := by
  simp only [enforceNode, Bool.not_eq_true']
  rfl

theorem removeEdge_eq (g : GraphVar) (a b : Nat) :
    removeEdge a b g =
      if g.isMandatory a b = true then .error .wipeout g
      else if g.isPotential a b = false then .ok false g
      else .ok true (g.excludeEdge a b) := by
  simp only [removeEdge, Bool.not_eq_true']
  rfl

theorem isMandatoryNode_includeEndpoint (hg : g.Valid) {v : Nat}
    (hv : g.isPotentialNode v = true) (x : Nat) :
    (g.includeEndpoint v).isMandatoryNode x = true ↔
      x = v ∨ g.isMandatoryNode x = true := by
  unfold includeEndpoint
  split
  next h =>
    constructor
    · exact .inr
    · rintro (rfl | hx)
      · exact h
      · exact hx
  next =>
    exact Graph.hasNode_addNode hg.lower (hg.order_eq ▸ hg.upper.lt_of_hasNode hv) x

theorem includeEndpoint_narrows {v : Nat} (hv : g.isPotentialNode v = true) :
    Narrows g (g.includeEndpoint v) := by
  unfold includeEndpoint
  split
  next => exact .refl
  next h => exact .single (.includeNode hv (by simpa using h))

theorem includeEndpoint_bounds (g : GraphVar) (v : Nat) :
    (g.includeEndpoint v).upper = g.upper ∧
      ∀ a b, (g.includeEndpoint v).isMandatory a b = g.isMandatory a b := by
  unfold includeEndpoint
  split <;> exact ⟨rfl, fun _ _ => rfl⟩

/-- The edge becomes mandatory after its endpoints. -/
def includeWhole (g : GraphVar) (a b : Nat) : GraphVar :=
  ((g.includeEndpoint a).includeEndpoint b).includeEdge a b

theorem enforceEdge_eq (hg : g.Valid) (a b : Nat) :
    enforceEdge a b g =
      if g.isPotential a b = false then .error .wipeout g
      else if g.isMandatory a b = true then .ok false g
      else .ok true (g.includeWhole a b) := by
  have hnode : ∀ (g : GraphVar) (v : Nat), g.isPotentialNode v = true →
      ∃ changed, enforceNode v g = .ok changed (g.includeEndpoint v) := by
    intro g v hv
    rw [enforceNode_eq, includeEndpoint, hv]
    by_cases hmandatory : g.isMandatoryNode v = true <;> simp [hmandatory]
  refine (Attempt.bind_eq_of_ok (x := get) rfl).trans ?_
  cases hpotential : g.isPotential a b with
  | false => rfl
  | true =>
      obtain ⟨ca, hca⟩ := hnode g a (hg.upper.source hpotential)
      have hb : (g.includeEndpoint a).isPotentialNode b = true := by
        have hupper := (includeEndpoint_bounds g a).1
        simpa [isPotentialNode, hupper] using hg.upper.target hpotential
      obtain ⟨cb, hcb⟩ := hnode (g.includeEndpoint a) b hb
      cases hmandatory : g.isMandatory a b with
      | true => rfl
      | false => exact (Attempt.bind_eq_of_ok hca).trans (Attempt.bind_eq_of_ok hcb)

/-- Both ends of a possible edge are included, and no edge. -/
theorem includeEndpoints_spec (hg : g.Valid) {a b : Nat} (hpotential : g.isPotential a b = true) :
    Narrows g ((g.includeEndpoint a).includeEndpoint b) ∧
      ((g.includeEndpoint a).includeEndpoint b).upper = g.upper ∧
      (∀ x y, ((g.includeEndpoint a).includeEndpoint b).isMandatory x y = g.isMandatory x y) ∧
      (∀ v, ((g.includeEndpoint a).includeEndpoint b).isMandatoryNode v = true ↔
        v = a ∨ v = b ∨ g.isMandatoryNode v = true) := by
  have ha : g.isPotentialNode a = true := hg.upper.source hpotential
  have hfirst := includeEndpoint_narrows ha
  have hvalid := hfirst.valid hg
  obtain ⟨hupper, hedge⟩ := includeEndpoint_bounds g a
  have hb : (g.includeEndpoint a).isPotentialNode b = true := by
    simpa [isPotentialNode, hupper] using hg.upper.target hpotential
  obtain ⟨hupper', hedge'⟩ := includeEndpoint_bounds (g.includeEndpoint a) b
  refine ⟨hfirst.trans (includeEndpoint_narrows hb), hupper'.trans hupper,
    fun x y => (hedge' x y).trans (hedge x y), fun v => ?_⟩
  rw [isMandatoryNode_includeEndpoint hvalid hb, isMandatoryNode_includeEndpoint hg ha]
  exact or_left_comm

theorem includeWhole_spec (hg : g.Valid) {a b : Nat} (hpotential : g.isPotential a b = true)
    (hnot : g.isMandatory a b = false) :
    Narrows g (g.includeWhole a b) ∧ (g.includeWhole a b).upper = g.upper ∧
      (∀ x y, (g.includeWhole a b).isMandatory x y = true ↔
        Shape.SameEdge g.directed a b x y ∨ g.isMandatory x y = true) ∧
      (∀ v, (g.includeWhole a b).isMandatoryNode v = true ↔
        v = a ∨ v = b ∨ g.isMandatoryNode v = true) := by
  obtain ⟨hnarrows, hupper, hedge, hnode⟩ := includeEndpoints_spec hg hpotential
  rw [includeWhole]
  generalize (g.includeEndpoint a).includeEndpoint b = s at *
  have hvalid := hnarrows.valid hg
  have hpotential' : s.isPotential a b = true := by
    rw [isPotential, hupper]
    exact hpotential
  have hma := (hnode a).mpr (.inl rfl)
  have hmb := (hnode b).mpr (.inr (.inl rfl))
  have hchange : Change s (s.includeEdge a b) :=
    .includeEdge hpotential' ((hedge a b).trans hnot) hma hmb
  refine ⟨Relation.ReflTransGen.tail hnarrows hchange, by rw [upper_includeEdge, hupper],
    fun x y => ?_, fun v => ?_⟩
  · rw [isMandatory_includeEdge hvalid hpotential', hnarrows.directed hg, hedge]
  · rw [isMandatoryNode, lower_includeEdge,
      Graph.hasNode_addEdge hvalid.lower (hvalid.lower.lt_of_hasNode hma)
        (hvalid.lower.lt_of_hasNode hmb)]
    change v = a ∨ v = b ∨ s.isMandatoryNode v = true ↔ _
    rw [hnode]
    generalize g.isMandatoryNode v = m
    grind

end GraphVar

end GraphInterval
