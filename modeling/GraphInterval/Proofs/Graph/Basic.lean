import GraphInterval.Graph.Basic
import GraphInterval.Proofs.SparseSet
import Mathlib.Algebra.BigOperators.Group.Finset.Sigma
import Mathlib.Data.Finset.Prod

/-!
# The graph that a representation stands for

A graph is represented by one sparse set for its nodes and one for every
neighbourhood.  A representation is valid if the neighbourhoods mirror each
other and every endpoint of an edge is a node.  Its shape is the pair of its
node and edge relations, and every operation is described by what it does to
the shape.
-/

namespace GraphInterval

/-! ### Tables of neighbourhoods -/

/-- One valid set over the universe for every node. -/
structure Neighbourhoods (table : Array SparseSet) (n : Nat) : Prop where
  size_eq : table.size = n
  valid : ∀ a < n, (table.getD a (SparseSet.empty 0)).Valid
  capacity_eq : ∀ a < n, (table.getD a (SparseSet.empty 0)).capacity = n

namespace Neighbourhoods

variable {table : Array SparseSet} {n : Nat}

theorem getD_valid (h : Neighbourhoods table n) (a : Nat) :
    (table.getD a (SparseSet.empty 0)).Valid := by
  by_cases ha : a < n
  · exact h.valid a ha
  · have hsize := h.size_eq
    rw [Array.getD_eq_getD_getElem?, Array.getElem?_eq_none (by omega)]
    exact SparseSet.valid_empty 0

theorem lt_of_contains (h : Neighbourhoods table n) {a b : Nat}
    (hab : (table.getD a (SparseSet.empty 0)).contains b = true) : a < n ∧ b < n := by
  have ha : a < n := by
    by_contra hge
    have hsize := h.size_eq
    rw [Array.getD_eq_getD_getElem?, Array.getElem?_eq_none (by omega)] at hab
    simp at hab
  refine ⟨ha, ?_⟩
  rw [← h.capacity_eq a ha]
  exact SparseSet.lt_capacity_of_contains (h.valid a ha) hab

theorem getD_modify (a b : Nat) (f : SparseSet → SparseSet) (ha : a < table.size) :
    (table.modify a f).getD b (SparseSet.empty 0) =
      if b = a then f (table.getD b (SparseSet.empty 0))
      else table.getD b (SparseSet.empty 0) := by
  simp only [Array.getD_eq_getD_getElem?, Array.getElem?_modify]
  split
  next h =>
    subst h
    simp [ha]
  next h => simp [Ne.symm h]

theorem modify (h : Neighbourhoods table n) {a : Nat} (ha : a < n)
    {f : SparseSet → SparseSet} (hvalid : ∀ s : SparseSet, s.Valid → (f s).Valid)
    (hcapacity : ∀ s : SparseSet, (f s).capacity = s.capacity) :
    Neighbourhoods (table.modify a f) n := by
  have hsize : a < table.size := h.size_eq ▸ ha
  refine ⟨by rw [Array.size_modify, h.size_eq], fun b hb => ?_, fun b hb => ?_⟩
  all_goals rw [getD_modify a b f hsize]; split
  · exact hvalid _ (h.valid b hb)
  · exact h.valid b hb
  · rw [hcapacity, h.capacity_eq b hb]
  · exact h.capacity_eq b hb

theorem contains_modify_insert (h : Neighbourhoods table n) {a b : Nat} (ha : a < n)
    (hb : b < n) (x y : Nat) :
    ((table.modify a (·.insert b)).getD x (SparseSet.empty 0)).contains y = true ↔
      (x = a ∧ y = b) ∨ (table.getD x (SparseSet.empty 0)).contains y = true := by
  rw [getD_modify a x _ (h.size_eq ▸ ha)]
  split
  next hx =>
    subst hx
    rw [SparseSet.contains_insert (h.valid x ha), h.capacity_eq x ha]
    simp [hb]
  next hx => simp [hx]

theorem contains_modify_erase (h : Neighbourhoods table n) {a b : Nat} (ha : a < n)
    (x y : Nat) :
    ((table.modify a (·.erase b)).getD x (SparseSet.empty 0)).contains y = true ↔
      ¬ (x = a ∧ y = b) ∧ (table.getD x (SparseSet.empty 0)).contains y = true := by
  rw [getD_modify a x _ (h.size_eq ▸ ha)]
  split
  next hx =>
    subst hx
    rw [SparseSet.contains_erase (h.valid x ha)]
    simp
  next hx => simp [hx]

theorem replicate (n : Nat) :
    Neighbourhoods (Array.replicate n (SparseSet.empty n)) n := by
  refine ⟨by simp, fun a ha => ?_, fun a ha => ?_⟩
  · simpa [Array.getD_eq_getD_getElem?, ha] using SparseSet.valid_empty n
  · simpa [Array.getD_eq_getD_getElem?, ha] using SparseSet.capacity_empty n

theorem contains_replicate (n a b : Nat) :
    ((Array.replicate n (SparseSet.empty n)).getD a (SparseSet.empty 0)).contains b = false := by
  by_cases ha : a < n <;> simp [Array.getD_eq_getD_getElem?, ha]

end Neighbourhoods

/-! ### Shapes -/

/-- A graph, given by its node and edge relations. -/
@[ext]
structure Shape where
  node : Nat → Prop
  edge : Nat → Nat → Prop

namespace Shape

/-- Every node and edge of the first shape belongs to the second. -/
instance : LE Shape where
  le G H := (∀ v, G.node v → H.node v) ∧ ∀ a b, G.edge a b → H.edge a b

theorem le_refl (G : Shape) : G ≤ G := ⟨fun _ h => h, fun _ _ h => h⟩

theorem le_trans {G H K : Shape} (h : G ≤ H) (h' : H ≤ K) : G ≤ K :=
  ⟨fun v hv => h'.1 v (h.1 v hv), fun a b hab => h'.2 a b (h.2 a b hab)⟩

/-- Endpoints of edges are nodes, and edges without a direction are symmetric. -/
structure IsGraph (directed : Bool) (H : Shape) : Prop where
  source : ∀ {a b}, H.edge a b → H.node a
  target : ∀ {a b}, H.edge a b → H.node b
  symm : directed = false → ∀ {a b}, H.edge a b → H.edge b a

/-- Whether two ordered pairs are the same edge of a graph. -/
def SameEdge (directed : Bool) (a b x y : Nat) : Prop :=
  (x = a ∧ y = b) ∨ (directed = false ∧ x = b ∧ y = a)

instance (directed : Bool) (a b x y : Nat) : Decidable (SameEdge directed a b x y) :=
  inferInstanceAs (Decidable (_ ∨ _))

theorem SameEdge.trans {d : Bool} {a b x y p q : Nat} (h : SameEdge d a b x y)
    (h' : SameEdge d x y p q) : SameEdge d a b p q := by
  unfold SameEdge at *
  grind

/-- The graph with one more node. -/
def insertNode (H : Shape) (v : Nat) : Shape :=
  { H with node := fun x => x = v ∨ H.node x }

/-- The graph without a node. -/
def eraseNode (H : Shape) (v : Nat) : Shape :=
  { H with node := fun x => x ≠ v ∧ H.node x }

/-- The graph with one more edge and its endpoints. -/
def insertEdge (H : Shape) (directed : Bool) (a b : Nat) : Shape :=
  { node := fun x => x = a ∨ x = b ∨ H.node x,
    edge := fun x y => SameEdge directed a b x y ∨ H.edge x y }

/-- The graph without an edge. -/
def eraseEdge (H : Shape) (directed : Bool) (a b : Nat) : Shape :=
  { H with edge := fun x y => ¬ SameEdge directed a b x y ∧ H.edge x y }

theorem ext_iff' {G H : Shape} :
    G = H ↔ (∀ v, G.node v ↔ H.node v) ∧ ∀ a b, G.edge a b ↔ H.edge a b := by
  constructor
  · rintro rfl
    exact ⟨fun _ => Iff.rfl, fun _ _ => Iff.rfl⟩
  · rintro ⟨hnode, hedge⟩
    exact Shape.ext (funext fun v => propext (hnode v))
      (funext fun a => funext fun b => propext (hedge a b))

theorem le_antisymm {G H : Shape} (h : G ≤ H) (h' : H ≤ G) : G = H :=
  ext_iff'.mpr ⟨fun v => ⟨h.1 v, h'.1 v⟩, fun a b => ⟨h.2 a b, h'.2 a b⟩⟩

theorem eraseNode_insertNode {H : Shape} {v : Nat} (h : ¬ H.node v) :
    (H.insertNode v).eraseNode v = H := by
  rw [ext_iff']
  refine ⟨fun x => ?_, fun _ _ => Iff.rfl⟩
  simp only [insertNode, eraseNode]
  grind

theorem insertNode_eraseNode {H : Shape} {v : Nat} (h : H.node v) :
    (H.eraseNode v).insertNode v = H := by
  rw [ext_iff']
  refine ⟨fun x => ?_, fun _ _ => Iff.rfl⟩
  simp only [insertNode, eraseNode]
  grind

theorem eraseEdge_insertEdge {d : Bool} {H : Shape} {a b : Nat} (ha : H.node a)
    (hb : H.node b) (h : ∀ x y, SameEdge d a b x y → ¬ H.edge x y) :
    (H.insertEdge d a b).eraseEdge d a b = H := by
  rw [ext_iff']
  simp only [insertEdge, eraseEdge]
  refine ⟨fun x => ?_, fun x y => ?_⟩
  · grind
  · have := h x y
    grind

theorem insertEdge_eraseEdge {d : Bool} {H : Shape} {a b : Nat} (ha : H.node a)
    (hb : H.node b) (h : ∀ x y, SameEdge d a b x y → H.edge x y) :
    (H.eraseEdge d a b).insertEdge d a b = H := by
  rw [ext_iff']
  simp only [insertEdge, eraseEdge]
  refine ⟨fun x => ?_, fun x y => ?_⟩
  · grind
  · have := h x y
    grind

end Shape

namespace Graph

/-- The node and edge relations of a representation. -/
def shape (g : Graph) : Shape :=
  { node := fun v => g.hasNode v = true, edge := fun a b => g.hasEdge a b = true }

/-- The neighbourhoods mirror each other, and endpoints of edges are nodes. -/
structure Valid (g : Graph) : Prop where
  nodes : g.nodes.Valid
  outgoing : Neighbourhoods g.outgoing g.order
  incoming : g.directed = true → Neighbourhoods g.incoming g.order
  incoming_eq : g.directed = false → g.incoming = #[]
  mirror : ∀ a b, (g.predecessors b).contains a = true ↔ g.hasEdge a b = true
  endpoints : ∀ a b, g.hasEdge a b = true → g.hasNode a = true ∧ g.hasNode b = true

variable {g h : Graph}

theorem Valid.source (hg : g.Valid) {a b : Nat} (hab : g.hasEdge a b = true) :
    g.hasNode a = true :=
  (hg.endpoints a b hab).1

theorem Valid.target (hg : g.Valid) {a b : Nat} (hab : g.hasEdge a b = true) :
    g.hasNode b = true :=
  (hg.endpoints a b hab).2

theorem Valid.symm (hg : g.Valid) (hd : g.directed = false) {a b : Nat}
    (hab : g.hasEdge a b = true) : g.hasEdge b a = true := by
  have := (hg.mirror a b).mpr hab
  simpa [predecessors, hd, hasEdge] using this

theorem Valid.lt_of_hasEdge (hg : g.Valid) {a b : Nat} (hab : g.hasEdge a b = true) :
    a < g.order ∧ b < g.order :=
  hg.outgoing.lt_of_contains hab

theorem Valid.lt_of_hasNode (hg : g.Valid) {v : Nat} (hv : g.hasNode v = true) :
    v < g.order :=
  SparseSet.lt_capacity_of_contains hg.nodes hv

theorem Valid.successors (hg : g.Valid) (a : Nat) : (g.successors a).Valid :=
  hg.outgoing.getD_valid a

theorem Valid.predecessors (hg : g.Valid) (a : Nat) : (g.predecessors a).Valid := by
  unfold Graph.predecessors
  split
  next hd => exact (hg.incoming hd).getD_valid a
  next => exact hg.successors a

theorem mem_nodes (hg : g.Valid) {v : Nat} : v ∈ g.nodes.toList ↔ g.hasNode v = true :=
  SparseSet.mem_toList hg.nodes

theorem mem_successors (hg : g.Valid) {a b : Nat} :
    b ∈ (g.successors a).toList ↔ g.hasEdge a b = true :=
  SparseSet.mem_toList (hg.successors a)

theorem mem_predecessors (hg : g.Valid) {a b : Nat} :
    a ∈ (g.predecessors b).toList ↔ g.hasEdge a b = true := by
  rw [SparseSet.mem_toList (hg.predecessors b), hg.mirror]

/-! ### Adding nodes and edges -/

@[simp]
theorem order_addNode (g : Graph) (v : Nat) : (g.addNode v).order = g.order :=
  SparseSet.capacity_insert _ _

@[simp]
theorem directed_addNode (g : Graph) (v : Nat) : (g.addNode v).directed = g.directed := rfl

@[simp]
theorem hasEdge_addNode (g : Graph) (v a b : Nat) :
    (g.addNode v).hasEdge a b = g.hasEdge a b := rfl

theorem hasNode_addNode (hg : g.Valid) {v : Nat} (hv : v < g.order) (x : Nat) :
    (g.addNode v).hasNode x = true ↔ x = v ∨ g.hasNode x = true := by
  have := SparseSet.contains_insert hg.nodes v x
  simpa [addNode, hasNode, order, show v < g.nodes.capacity from hv] using this

theorem Valid.addNode (hg : g.Valid) (v : Nat) : (g.addNode v).Valid := by
  refine ⟨hg.nodes.insert v, ?_, ?_, hg.incoming_eq, hg.mirror, fun a b hab => ?_⟩
  · rw [order_addNode]
    exact hg.outgoing
  · rw [order_addNode]
    exact hg.incoming
  · exact ⟨(SparseSet.contains_insert hg.nodes v a).mpr (.inr (hg.source hab)),
      (SparseSet.contains_insert hg.nodes v b).mpr (.inr (hg.target hab))⟩

/-- The tables of a graph with one edge inserted or erased by `f`. -/
def modifyEdge (g : Graph) (a b : Nat) (f : Nat → SparseSet → SparseSet) : Graph :=
  if g.directed then
    { g with outgoing := g.outgoing.modify a (f b), incoming := g.incoming.modify b (f a) }
  else { g with outgoing := (g.outgoing.modify a (f b)).modify b (f a) }

theorem addEdge_eq (g : Graph) (a b : Nat) :
    g.addEdge a b =
      if g.hasEdge a b then (g.addNode a).addNode b
      else ((g.addNode a).addNode b).modifyEdge a b fun x s => s.insert x := by
  simp only [addEdge, modifyEdge, hasEdge_addNode]
  rfl

theorem removeEdge_eq (g : Graph) (a b : Nat) :
    g.removeEdge a b =
      if g.hasEdge a b then g.modifyEdge a b fun x s => s.erase x else g := by
  simp only [removeEdge, modifyEdge]

@[simp]
theorem order_modifyEdge (g : Graph) (a b : Nat) (f : Nat → SparseSet → SparseSet) :
    (g.modifyEdge a b f).order = g.order := by
  unfold modifyEdge
  split <;> rfl

@[simp]
theorem directed_modifyEdge (g : Graph) (a b : Nat) (f : Nat → SparseSet → SparseSet) :
    (g.modifyEdge a b f).directed = g.directed := by
  unfold modifyEdge
  split <;> rfl

@[simp]
theorem hasNode_modifyEdge (g : Graph) (a b : Nat) (f : Nat → SparseSet → SparseSet)
    (v : Nat) : (g.modifyEdge a b f).hasNode v = g.hasNode v := by
  unfold modifyEdge
  split <;> rfl

/-- Both tables of a modified graph stay tables, and mirror each other if the
changes of membership do. -/
theorem Valid.modifyEdge (hg : g.Valid) {a b : Nat} (ha : a < g.order) (hb : b < g.order)
    {f : Nat → SparseSet → SparseSet} {k : Prop → Prop → Prop}
    (hvalid : ∀ x (s : SparseSet), s.Valid → (f x s).Valid)
    (hcapacity : ∀ x (s : SparseSet), (f x s).capacity = s.capacity)
    (hcontains : ∀ {table : Array SparseSet}, Neighbourhoods table g.order →
      ∀ {c d : Nat}, c < g.order → d < g.order → ∀ x y,
        ((table.modify c (f d)).getD x (SparseSet.empty 0)).contains y = true ↔
          k (x = c ∧ y = d) ((table.getD x (SparseSet.empty 0)).contains y = true))
    (hcomm : ∀ p q r, k p (k q r) ↔ k q (k p r))
    (hendpoints : ∀ x y, (g.modifyEdge a b f).hasEdge x y = true →
      g.hasNode x = true ∧ g.hasNode y = true) :
    (g.modifyEdge a b f).Valid := by
  have hout := hg.outgoing.modify ha (hvalid b) (hcapacity b)
  cases hd : g.directed with
  | true =>
      have heq : g.modifyEdge a b f =
          { g with outgoing := g.outgoing.modify a (f b),
                   incoming := g.incoming.modify b (f a) } := by
        simp [Graph.modifyEdge, hd]
      rw [heq] at hendpoints ⊢
      refine ⟨hg.nodes, hout,
        fun _ => (hg.incoming hd).modify hb (hvalid a) (hcapacity a),
        fun h => absurd h (by simp [hd]), fun x y => ?_, hendpoints⟩
      have hmirror := hg.mirror x y
      simp only [Graph.predecessors, hd, if_true, hasEdge, Graph.successors] at hmirror ⊢
      rw [hcontains (hg.incoming hd) hb ha, hcontains hg.outgoing ha hb, hmirror,
        and_comm (a := y = b)]
  | false =>
      have heq : g.modifyEdge a b f =
          { g with outgoing := (g.outgoing.modify a (f b)).modify b (f a) } := by
        simp [Graph.modifyEdge, hd]
      rw [heq] at hendpoints ⊢
      refine ⟨hg.nodes, hout.modify hb (hvalid a) (hcapacity a),
        fun h => absurd h (by simp [hd]), fun _ => hg.incoming_eq hd, fun x y => ?_, hendpoints⟩
      have hmirror := hg.mirror x y
      simp only [Graph.predecessors, hd, hasEdge, Graph.successors] at hmirror ⊢
      simp only [Bool.false_eq_true, if_false] at hmirror ⊢
      rw [hcontains hout hb ha, hcontains hg.outgoing ha hb, hcontains hout hb ha,
        hcontains hg.outgoing ha hb, hmirror, hcomm, and_comm (a := y = a),
        and_comm (a := y = b)]

theorem hasEdge_modifyEdge_insert (hg : g.Valid) {a b : Nat} (ha : a < g.order)
    (hb : b < g.order) (x y : Nat) :
    (g.modifyEdge a b fun x s => s.insert x).hasEdge x y = true ↔
      Shape.SameEdge g.directed a b x y ∨ g.hasEdge x y = true := by
  have hout := hg.outgoing.modify (f := (·.insert b)) ha (fun _ hs => hs.insert b)
    (SparseSet.capacity_insert · b)
  cases hd : g.directed
  · simp only [modifyEdge, hasEdge, successors, hd, Bool.false_eq_true, if_false]
    rw [hout.contains_modify_insert hb ha, hg.outgoing.contains_modify_insert ha hb]
    simp only [Shape.SameEdge, true_and]
    tauto
  · simp only [modifyEdge, hasEdge, successors, hd, if_true]
    rw [hg.outgoing.contains_modify_insert ha hb]
    simp [Shape.SameEdge]

theorem hasEdge_modifyEdge_erase (hg : g.Valid) {a b : Nat} (ha : a < g.order)
    (hb : b < g.order) (x y : Nat) :
    (g.modifyEdge a b fun x s => s.erase x).hasEdge x y = true ↔
      ¬ Shape.SameEdge g.directed a b x y ∧ g.hasEdge x y = true := by
  have hout := hg.outgoing.modify (f := (·.erase b)) ha (fun _ hs => hs.erase b)
    (SparseSet.capacity_erase · b)
  cases hd : g.directed
  · simp only [modifyEdge, hasEdge, successors, hd, Bool.false_eq_true, if_false]
    rw [hout.contains_modify_erase hb, hg.outgoing.contains_modify_erase ha]
    simp only [Shape.SameEdge, true_and]
    tauto
  · simp only [modifyEdge, hasEdge, successors, hd, if_true]
    rw [hg.outgoing.contains_modify_erase ha]
    simp [Shape.SameEdge]

@[simp]
theorem order_addEdge (g : Graph) (a b : Nat) : (g.addEdge a b).order = g.order := by
  rw [addEdge_eq]
  split <;> simp

@[simp]
theorem directed_addEdge (g : Graph) (a b : Nat) :
    (g.addEdge a b).directed = g.directed := by
  rw [addEdge_eq]
  split <;> simp

theorem hasNode_addEdge (hg : g.Valid) {a b : Nat} (ha : a < g.order) (hb : b < g.order)
    (v : Nat) :
    (g.addEdge a b).hasNode v = true ↔ v = a ∨ v = b ∨ g.hasNode v = true := by
  have hnode : ((g.addNode a).addNode b).hasNode v = true ↔
      v = a ∨ v = b ∨ g.hasNode v = true := by
    rw [hasNode_addNode (hg.addNode a) (by simpa using hb), hasNode_addNode hg ha]
    tauto
  rw [addEdge_eq]
  split
  · exact hnode
  · rw [hasNode_modifyEdge]
    exact hnode

theorem Valid.sameEdge (hg : g.Valid) {a b x y : Nat}
    (h : Shape.SameEdge g.directed a b x y) : g.hasEdge x y = g.hasEdge a b := by
  obtain ⟨rfl, rfl⟩ | ⟨hd, rfl, rfl⟩ := h
  · rfl
  · rw [Bool.eq_iff_iff]
    exact ⟨hg.symm hd, hg.symm hd⟩

theorem hasEdge_addEdge (hg : g.Valid) {a b : Nat} (ha : a < g.order) (hb : b < g.order)
    (x y : Nat) :
    (g.addEdge a b).hasEdge x y = true ↔
      Shape.SameEdge g.directed a b x y ∨ g.hasEdge x y = true := by
  rw [addEdge_eq]
  split
  next hab =>
    constructor
    · exact .inr
    · rintro (hsame | hxy)
      · exact (hg.sameEdge hsame).trans hab
      · exact hxy
  next =>
    rw [hasEdge_modifyEdge_insert ((hg.addNode a).addNode b) (by simpa using ha)
      (by simpa using hb)]
    rfl

theorem Valid.addEdge (hg : g.Valid) {a b : Nat} (ha : a < g.order) (hb : b < g.order) :
    (g.addEdge a b).Valid := by
  have hnodes : ((g.addNode a).addNode b).Valid := (hg.addNode a).addNode b
  have hedge := hasEdge_modifyEdge_insert hnodes (a := a) (b := b) (by simpa using ha)
    (by simpa using hb)
  have hnode : ∀ x, x = a ∨ x = b ∨ g.hasNode x = true →
      ((g.addNode a).addNode b).hasNode x = true := by
    intro x hx
    rw [hasNode_addNode (hg.addNode a) (by simpa using hb), hasNode_addNode hg ha]
    tauto
  rw [addEdge_eq]
  split
  · exact hnodes
  · refine hnodes.modifyEdge (k := fun p q => p ∨ q) (by simpa using ha)
      (by simpa using hb) (fun x _ hs => hs.insert x)
      (fun x s => SparseSet.capacity_insert s x)
      (fun htable _ _ hc hd x y => htable.contains_modify_insert hc hd x y)
      (fun p q r => by tauto) (fun x y hxy => ?_)
    rw [hedge] at hxy
    obtain (⟨rfl, rfl⟩ | ⟨-, rfl, rfl⟩) | hxy := hxy
    · exact ⟨hnode _ (.inl rfl), hnode _ (.inr (.inl rfl))⟩
    · exact ⟨hnode _ (.inr (.inl rfl)), hnode _ (.inl rfl)⟩
    · exact ⟨hnode _ (.inr (.inr (hg.source hxy))), hnode _ (.inr (.inr (hg.target hxy)))⟩

/-! ### Removing edges and nodes -/

@[simp]
theorem order_removeEdge (g : Graph) (a b : Nat) : (g.removeEdge a b).order = g.order := by
  rw [removeEdge_eq]
  split <;> simp

@[simp]
theorem directed_removeEdge (g : Graph) (a b : Nat) :
    (g.removeEdge a b).directed = g.directed := by
  rw [removeEdge_eq]
  split <;> simp

@[simp]
theorem hasNode_removeEdge (g : Graph) (a b v : Nat) :
    (g.removeEdge a b).hasNode v = g.hasNode v := by
  rw [removeEdge_eq]
  split <;> simp

theorem hasEdge_removeEdge (hg : g.Valid) (a b x y : Nat) :
    (g.removeEdge a b).hasEdge x y = true ↔
      ¬ Shape.SameEdge g.directed a b x y ∧ g.hasEdge x y = true := by
  rw [removeEdge_eq]
  split
  next hab =>
    obtain ⟨ha, hb⟩ := hg.lt_of_hasEdge hab
    exact hasEdge_modifyEdge_erase hg ha hb x y
  next hab =>
    refine ⟨fun hxy => ⟨fun hsame => ?_, hxy⟩, fun h => h.2⟩
    rw [hg.sameEdge hsame] at hxy
    exact hab hxy

theorem Valid.removeEdge (hg : g.Valid) (a b : Nat) : (g.removeEdge a b).Valid := by
  rw [removeEdge_eq]
  split
  next hab =>
    obtain ⟨ha, hb⟩ := hg.lt_of_hasEdge hab
    refine hg.modifyEdge (k := fun p q => ¬ p ∧ q) ha hb (fun x _ hs => hs.erase x)
      (fun x s => SparseSet.capacity_erase s x)
      (fun htable _ _ hc _ x y => htable.contains_modify_erase hc x y)
      (fun p q r => by tauto) (fun x y hxy => ?_)
    rw [hasEdge_modifyEdge_erase hg ha hb] at hxy
    exact hg.endpoints x y hxy.2
  next => exact hg

theorem isIsolated_iff (hg : g.Valid) {v : Nat} :
    g.isIsolated v = true ↔ ∀ x, g.hasEdge v x = false ∧ g.hasEdge x v = false := by
  have hmirror : ∀ x, (g.predecessors v).contains x = g.hasEdge x v :=
    fun x => Bool.eq_iff_iff.mpr (hg.mirror x v)
  rw [isIsolated, Bool.and_eq_true, SparseSet.isEmpty_iff (hg.successors v),
    SparseSet.isEmpty_iff (hg.predecessors v), forall_and]
  simp only [hmirror]
  rfl

theorem dropIsolated_eq (hg : g.Valid) {v : Nat}
    (h : ∀ x, g.hasEdge v x = false ∧ g.hasEdge x v = false) :
    g.dropIsolated v = .ok { g with nodes := g.nodes.erase v } := by
  rw [dropIsolated, if_pos ((isIsolated_iff hg).mpr h)]

theorem hasNode_erase (hg : g.Valid) (v x : Nat) :
    ({ g with nodes := g.nodes.erase v } : Graph).hasNode x = true ↔
      x ≠ v ∧ g.hasNode x = true :=
  SparseSet.contains_erase hg.nodes v x

theorem Valid.eraseNode (hg : g.Valid) {v : Nat}
    (h : ∀ x, g.hasEdge v x = false ∧ g.hasEdge x v = false) :
    ({ g with nodes := g.nodes.erase v } : Graph).Valid := by
  have horder : ({ g with nodes := g.nodes.erase v } : Graph).order = g.order :=
    SparseSet.capacity_erase g.nodes v
  refine ⟨hg.nodes.erase v, ?_, ?_, hg.incoming_eq, hg.mirror, fun a b hab => ?_⟩
  · rw [horder]
    exact hg.outgoing
  · rw [horder]
    exact hg.incoming
  · rw [hasNode_erase hg, hasNode_erase hg]
    have hab' : g.hasEdge a b = true := hab
    refine ⟨⟨fun hav => ?_, hg.source hab⟩, ⟨fun hbv => ?_, hg.target hab⟩⟩
    · subst hav
      simp [(h b).1] at hab'
    · subst hbv
      simp [(h a).2] at hab'

/-! ### Shapes after operations -/

theorem shape_addNode (hg : g.Valid) {v : Nat} (hv : v < g.order) :
    (g.addNode v).shape = g.shape.insertNode v :=
  Shape.ext_iff'.mpr ⟨hasNode_addNode hg hv, fun _ _ => Iff.rfl⟩

theorem shape_addEdge (hg : g.Valid) {a b : Nat} (ha : a < g.order) (hb : b < g.order) :
    (g.addEdge a b).shape = g.shape.insertEdge g.directed a b :=
  Shape.ext_iff'.mpr ⟨hasNode_addEdge hg ha hb, hasEdge_addEdge hg ha hb⟩

theorem shape_removeEdge (hg : g.Valid) (a b : Nat) :
    (g.removeEdge a b).shape = g.shape.eraseEdge g.directed a b :=
  Shape.ext_iff'.mpr
    ⟨fun v => iff_of_eq (congrArg (· = true) (hasNode_removeEdge g a b v)),
      hasEdge_removeEdge hg a b⟩

theorem shape_eraseNode (hg : g.Valid) (v : Nat) :
    ({ g with nodes := g.nodes.erase v } : Graph).shape = g.shape.eraseNode v :=
  Shape.ext_iff'.mpr ⟨hasNode_erase hg v, fun _ _ => Iff.rfl⟩

theorem order_eraseNode (g : Graph) (v : Nat) :
    ({ g with nodes := g.nodes.erase v } : Graph).order = g.order :=
  SparseSet.capacity_erase g.nodes v

end Graph

end GraphInterval
