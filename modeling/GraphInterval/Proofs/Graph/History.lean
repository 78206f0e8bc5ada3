import GraphInterval.Graph.Guarded
import GraphInterval.Proofs.Graph.Compare
import Mathlib.Data.Set.Card
import Mathlib.Data.Sym.Sym2

/-!
# A run of operations on a graph

Seen from outside, the node set and the neighbourhood tables are one graph in
the mathematical sense, a pair of a node and an edge relation.  Each operation
changes that pair in one way, and says whether it did.  The representation
starts as the empty graph and follows it through any history inside of the
universe, so it answers every question about nodes, neighbours, the number of
edges, inclusion and equality as the mathematical graph does.
-/

namespace GraphInterval

namespace Shape

/-- The graph without nodes. -/
def empty : Shape := ⟨fun _ => False, fun _ _ => False⟩

/-- The graph without a node and the edges at it. -/
def deleteNode (H : Shape) (v : ℕ) : Shape :=
  { node := fun x => x ≠ v ∧ H.node x,
    edge := fun a b => a ≠ v ∧ b ≠ v ∧ H.edge a b }

/-- The number of edges: ordered pairs, or pairs without an order. -/
noncomputable def numEdges (directed : Bool) (H : Shape) : ℕ :=
  if directed then {e : ℕ × ℕ | H.edge e.1 e.2}.ncard
  else {e : Sym2 ℕ | ∃ a b, e = s(a, b) ∧ H.edge a b}.ncard

variable {H : Shape} {d : Bool} {a b v : ℕ}

theorem insertNode_ne_iff : H.insertNode v ≠ H ↔ ¬ H.node v := by
  rw [ne_eq, ext_iff']
  simp [insertNode]

theorem deleteNode_ne_iff (hH : H.IsGraph d) : H.deleteNode v ≠ H ↔ H.node v := by
  rw [ne_eq, ext_iff', not_iff_comm]
  constructor
  · intro hv
    refine ⟨fun x => ?_, fun x y => ?_⟩
    · exact and_iff_right_of_imp fun hx hxv => hv (hxv ▸ hx)
    · exact ⟨fun h => h.2.2,
        fun hxy => ⟨fun hxv => hv (hxv ▸ hH.source hxy), fun hyv => hv (hyv ▸ hH.target hxy), hxy⟩⟩
  · intro hsame hv
    exact ((hsame.1 v).mpr hv).1 rfl

theorem insertEdge_ne_iff (hH : H.IsGraph d) : H.insertEdge d a b ≠ H ↔ ¬ H.edge a b := by
  rw [ne_eq, ext_iff', not_iff_not]
  constructor
  · intro hsame
    exact (hsame.2 a b).mp (.inl (.inl ⟨rfl, rfl⟩))
  · intro hab
    refine ⟨fun x => ?_, fun x y => or_iff_right_of_imp ?_⟩
    · have ha := hH.source hab
      have hb := hH.target hab
      simp only [insertEdge]
      grind
    · rintro (⟨rfl, rfl⟩ | ⟨hd, rfl, rfl⟩)
      · exact hab
      · exact hH.symm hd hab

theorem eraseEdge_ne_iff (hH : H.IsGraph d) : H.eraseEdge d a b ≠ H ↔ H.edge a b := by
  rw [ne_eq, ext_iff', not_iff_comm]
  constructor
  · intro hab
    refine ⟨fun _ => Iff.rfl, fun x y => and_iff_right_of_imp ?_⟩
    rintro hxy (⟨rfl, rfl⟩ | ⟨hd, rfl, rfl⟩)
    · exact hab hxy
    · exact hab (hH.symm hd hxy)
  · intro hsame hab
    exact ((hsame.2 a b).mpr hab).1 (.inl ⟨rfl, rfl⟩)

end Shape

namespace Graph

variable {n m : ℕ} {d e : Bool} {g h : Graph} {H K : Shape} {v : ℕ}

/-! ### Removing a node -/

theorem hasNode_foldl_removeEdge (g : Graph) (edges : List Edge) (v : ℕ) :
    (edges.foldl (fun g e => g.removeEdge e.1 e.2) g).hasNode v = g.hasNode v := by
  induction edges generalizing g with
  | nil => rfl
  | cons e edges ih => rw [List.foldl_cons, ih, hasNode_removeEdge]

theorem hasEdge_foldl_removeEdge (hg : g.Valid) (edges : List Edge) (x y : ℕ) :
    (edges.foldl (fun g e => g.removeEdge e.1 e.2) g).hasEdge x y = true ↔
      (∀ e ∈ edges, ¬ Shape.SameEdge g.directed e.1 e.2 x y) ∧ g.hasEdge x y = true := by
  induction edges generalizing g with
  | nil => simp
  | cons e edges ih =>
      rw [List.foldl_cons, ih (hg.removeEdge e.1 e.2), hasEdge_removeEdge hg,
        directed_removeEdge, List.forall_mem_cons]
      tauto

/-- What is left after the edges that leave a node are removed. -/
theorem hasEdge_removeSuccessors (hg : g.Valid) (x y : ℕ) :
    ((g.successors v).toList.foldl (fun g other => g.removeEdge v other) g).hasEdge x y = true ↔
      x ≠ v ∧ (g.directed = false → y ≠ v) ∧ g.hasEdge x y = true := by
  have hfold := hasEdge_foldl_removeEdge hg ((g.successors v).toList.map (v, ·)) x y
  rw [List.foldl_map] at hfold
  simp only [List.forall_mem_map, mem_successors hg] at hfold
  rw [hfold]
  constructor
  · rintro ⟨hkept, hxy⟩
    refine ⟨?_, ?_, hxy⟩
    · rintro rfl
      exact hkept y hxy (.inl ⟨rfl, rfl⟩)
    · rintro hd rfl
      exact hkept x (hg.symm hd hxy) (.inr ⟨hd, rfl, rfl⟩)
  · rintro ⟨hx, hy, hxy⟩
    refine ⟨?_, hxy⟩
    rintro b - (⟨rfl, -⟩ | ⟨hd, -, rfl⟩)
    · exact hx rfl
    · exact hy hd rfl

theorem shape_isolate (hg : g.Valid) :
    (g.isolate v).shape =
      { node := g.shape.node, edge := fun a b => a ≠ v ∧ b ≠ v ∧ g.shape.edge a b } := by
  have hvalid := hg.foldl_removeEdge ((g.successors v).toList.map (v, ·))
  have hsame := order_foldl_removeEdge g ((g.successors v).toList.map (v, ·))
  have hnode := hasNode_foldl_removeEdge g ((g.successors v).toList.map (v, ·))
  have hedge := hasEdge_removeSuccessors hg (v := v)
  rw [List.foldl_map] at hvalid hsame
  simp only [List.foldl_map] at hnode
  rw [Shape.ext_iff']
  unfold isolate
  dsimp only [shape]
  generalize (g.successors v).toList.foldl (fun g other => g.removeEdge v other) g = g₁ at *
  split
  next hd =>
    -- In a directed graph the edges that enter the node are still there.
    have hnode' := hasNode_foldl_removeEdge g₁ ((g₁.predecessors v).toList.map (·, v))
    have hedge' := hasEdge_foldl_removeEdge hvalid ((g₁.predecessors v).toList.map (·, v))
    simp only [List.foldl_map, List.forall_mem_map, mem_predecessors hvalid] at hnode' hedge'
    refine ⟨fun x => by rw [hnode', hnode], fun x y => ?_⟩
    rw [hedge', hedge]
    constructor
    · rintro ⟨hkept, hx, -, hxy⟩
      refine ⟨hx, ?_, hxy⟩
      rintro rfl
      exact hkept x ((hedge x y).mpr ⟨hx, by simp [← hsame.2, hd], hxy⟩) (.inl ⟨rfl, rfl⟩)
    · rintro ⟨hx, hy, hxy⟩
      refine ⟨?_, hx, fun _ => hy, hxy⟩
      rintro b - (⟨-, rfl⟩ | ⟨hd', -⟩)
      · exact hy rfl
      · exact absurd hd (by simp [hd'])
  next hd =>
    have hd' : g.directed = false := by
      rw [← hsame.2]
      simpa using hd
    refine ⟨fun x => by rw [hnode], fun x y => ?_⟩
    rw [hedge]
    simp [hd']

/-- Removing a node always succeeds, and only the node and its edges go. -/
theorem removeNode_spec (hg : g.Valid) (v : ℕ) :
    ∃ h, g.removeNode v = .ok h ∧ h.Valid ∧ h.order = g.order ∧ h.directed = g.directed ∧
      h.shape = g.shape.deleteNode v := by
  have hshape := Shape.ext_iff'.mp (shape_isolate hg (v := v))
  have hvalid := hg.isolate v
  have hisolated : ∀ x, (g.isolate v).hasEdge v x = false ∧ (g.isolate v).hasEdge x v = false := by
    intro x
    simp only [Bool.eq_false_iff, ne_eq]
    exact ⟨fun h => ((hshape.2 v x).mp h).1 rfl, fun h => ((hshape.2 x v).mp h).2.1 rfl⟩
  have hremove : g.removeNode v =
      .ok { g.isolate v with nodes := (g.isolate v).nodes.erase v } :=
    dropIsolated_eq hvalid hisolated
  obtain ⟨horder, hdirected⟩ := order_removeNode hremove
  refine ⟨_, hremove, hvalid.eraseNode hisolated, horder, hdirected, ?_⟩
  rw [shape_eraseNode hvalid, shape_isolate hg]
  rfl

/-! ### Operations -/

inductive Operation where
  | addNode (v : ℕ)
  | removeNode (v : ℕ)
  | addEdge (a b : ℕ)
  | removeEdge (a b : ℕ)

namespace Operation

/-- The operation concerns nodes of the universe. -/
def Inside (n : ℕ) : Operation → Prop
  | addNode v | removeNode v => v < n
  | addEdge a b | removeEdge a b => a < n ∧ b < n

/-- Performs one operation; answers whether something changed. -/
def perform (g : Graph) : Operation → Except Fault (Bool × Graph)
  | addNode v => Guarded.addNode g v
  | removeNode v => Guarded.removeNode g v
  | addEdge a b => Guarded.addEdge g a b
  | removeEdge a b => Guarded.removeEdge g a b

/-- Performs operations one after the other. -/
def performAll (g : Graph) : List Operation → Except Fault (List Bool × Graph)
  | [] => return ([], g)
  | operation :: operations => do
      let (changed, g) ← operation.perform g
      let (flags, g) ← performAll g operations
      return (changed :: flags, g)

/-- The graph after an operation. -/
def apply (directed : Bool) (H : Shape) : Operation → Shape
  | addNode v => H.insertNode v
  | removeNode v => H.deleteNode v
  | addEdge a b => H.insertEdge directed a b
  | removeEdge a b => H.eraseEdge directed a b

/-- The graph after a history, and which of its operations changed the graph. -/
inductive Steps (directed : Bool) : Shape → List Operation → List Bool → Shape → Prop where
  | nil {H : Shape} : Steps directed H [] [] H
  | cons {H K : Shape} {operation : Operation} {operations : List Operation} {changed : Bool}
      {flags : List Bool} : (changed = true ↔ operation.apply directed H ≠ H) →
      Steps directed (operation.apply directed H) operations flags K →
      Steps directed H (operation :: operations) (changed :: flags) K

end Operation

open Operation (performAll Steps)

/-- The structure `g` over the nodes below `n` is the graph `H`. -/
structure Represents (n : ℕ) (directed : Bool) (H : Shape) (g : Graph) : Prop where
  valid : g.Valid
  order_eq : g.order = n
  directed_eq : g.directed = directed
  node_iff (v : ℕ) : g.hasNode v = true ↔ H.node v
  edge_iff (a b : ℕ) : g.hasEdge a b = true ↔ H.edge a b
  successor_iff (a b : ℕ) : b ∈ (g.successors a).toList ↔ H.edge a b
  predecessor_iff (a b : ℕ) : a ∈ (g.predecessors b).toList ↔ H.edge a b
  lt_of_node (v : ℕ) : H.node v → v < n
  isGraph : H.IsGraph directed
  numEdges_eq : g.numEdges = H.numEdges directed

/-- A pair of an undirected graph has one order in which it is counted. -/
theorem numEdges_eq_shape (hg : g.Valid) : g.numEdges = g.shape.numEdges g.directed := by
  rw [numEdges_eq hg, Shape.numEdges]
  split
  next hd =>
    rw [← Set.ncard_coe_finset]
    congr 1
    ext p
    simp [mem_edgeSet hg, shape, hd]
  next hd =>
    have hd' : g.directed = false := by simpa using hd
    have himage : {p : Sym2 ℕ | ∃ a b, p = s(a, b) ∧ g.shape.edge a b} =
        (fun p : ℕ × ℕ => s(p.1, p.2)) '' (g.edgeSet : Set (ℕ × ℕ)) := by
      ext p
      constructor
      · rintro ⟨a, b, rfl, hab⟩
        obtain hle | hle := Nat.le_total a b
        · exact ⟨(a, b), (mem_edgeSet hg).mpr ⟨hab, .inr hle⟩, rfl⟩
        · exact ⟨(b, a), (mem_edgeSet hg).mpr ⟨hg.symm hd' hab, .inr hle⟩, Sym2.eq_swap⟩
      · rintro ⟨⟨a, b⟩, hab, rfl⟩
        exact ⟨a, b, rfl, ((mem_edgeSet hg).mp hab).1⟩
    have hinjective : Set.InjOn (fun p : ℕ × ℕ => s(p.1, p.2)) (g.edgeSet : Set (ℕ × ℕ)) := by
      rintro ⟨a, b⟩ hab ⟨x, y⟩ hxy heq
      have hle := ((mem_edgeSet hg).mp hab).2.resolve_left hd
      have hle' := ((mem_edgeSet hg).mp hxy).2.resolve_left hd
      obtain ⟨rfl, rfl⟩ | ⟨rfl, rfl⟩ := Sym2.eq_iff.mp heq
      · rfl
      · obtain rfl : a = b := Nat.le_antisymm hle hle'
        rfl
    rw [himage, Set.InjOn.ncard_image hinjective, Set.ncard_coe_finset]

/-- A valid structure is its own shape. -/
theorem Valid.represents (hg : g.Valid) : Represents g.order g.directed g.shape g where
  valid := hg
  order_eq := rfl
  directed_eq := rfl
  node_iff _ := Iff.rfl
  edge_iff _ _ := Iff.rfl
  successor_iff _ _ := mem_successors hg
  predecessor_iff _ _ := mem_predecessors hg
  lt_of_node _ hv := hg.lt_of_hasNode hv
  isGraph := hg.isGraph
  numEdges_eq := numEdges_eq_shape hg

theorem Represents.shape_eq (hr : Represents n d H g) : g.shape = H :=
  Shape.ext_iff'.mpr ⟨hr.node_iff, hr.edge_iff⟩

theorem Represents.of_shape (hg : g.Valid) (horder : g.order = n) (hd : g.directed = d)
    (hshape : g.shape = H) : Represents n d H g := by
  subst horder hd hshape
  exact hg.represents

theorem represents_empty (n : ℕ) (d : Bool) : Represents n d Shape.empty (empty n d) := by
  refine .of_shape (valid_empty n d) (SparseSet.capacity_empty n) rfl ?_
  rw [Shape.ext_iff']
  refine ⟨fun v => ?_, fun a b => ?_⟩
  · simp [shape, hasNode, empty, Shape.empty]
  · have hfalse : (empty n d).hasEdge a b = false := Neighbourhoods.contains_replicate n a b
    simp [shape, hfalse, Shape.empty]

/-! ### One operation -/

theorem Represents.checkNode (hr : Represents n d H g) (hv : v < n) : g.checkNode v = .ok () := by
  rw [Graph.checkNode, hr.valid.outgoing.size_eq, hr.order_eq, if_pos hv]

theorem Represents.checkMember (hr : Represents n d H g) (hv : v < n) :
    g.checkMember v = .ok () := by
  rw [Graph.checkMember, hr.order_eq, if_pos hv]

/-- An operation inside of the universe never fails, follows the graph and says whether it
changed. -/
theorem Represents.perform (hr : Represents n d H g) {operation : Operation}
    (hop : operation.Inside n) :
    ∃ changed g', operation.perform g = .ok (changed, g') ∧
      Represents n d (operation.apply d H) g' ∧
      (changed = true ↔ operation.apply d H ≠ H) := by
  have hg := hr.valid
  obtain rfl := hr.order_eq
  obtain rfl := hr.directed_eq
  obtain rfl := hr.shape_eq
  cases operation with
  | addNode v =>
      have hrun : (Operation.addNode v).perform g = .ok (!g.hasNode v, g.addNode v) := by
        rw [Operation.perform, Guarded.addNode, hr.checkMember hop]
        rfl
      refine ⟨_, _, hrun, .of_shape (hg.addNode v) (order_addNode g v) rfl
        (shape_addNode hg hop), ?_⟩
      rw [Operation.apply, Shape.insertNode_ne_iff]
      simp [shape]
  | removeNode v =>
      obtain ⟨h, hremove, hvalid, horder, hdirected, hshape⟩ := removeNode_spec hg v
      have hrun : (Operation.removeNode v).perform g = .ok (g.hasNode v, h) := by
        rw [Operation.perform, Guarded.removeNode, hr.checkNode hop, hremove]
        rfl
      exact ⟨_, _, hrun, .of_shape hvalid horder hdirected hshape,
        (Shape.deleteNode_ne_iff hg.isGraph).symm⟩
  | addEdge a b =>
      obtain ⟨ha, hb⟩ := hop
      have hrun : (Operation.addEdge a b).perform g = .ok (!g.hasEdge a b, g.addEdge a b) := by
        rw [Operation.perform, Guarded.addEdge, hr.checkMember ha, hr.checkMember hb]
        rfl
      refine ⟨_, _, hrun, .of_shape (hg.addEdge ha hb) (order_addEdge g a b)
        (directed_addEdge g a b) (shape_addEdge hg ha hb), ?_⟩
      rw [Operation.apply, Shape.insertEdge_ne_iff hg.isGraph]
      simp [shape]
  | removeEdge a b =>
      obtain ⟨ha, hb⟩ := hop
      have hrun : (Operation.removeEdge a b).perform g =
          .ok (g.hasEdge a b, g.removeEdge a b) := by
        rw [Operation.perform, Guarded.removeEdge, hr.checkNode ha]
        rfl
      exact ⟨_, _, hrun, .of_shape (hg.removeEdge a b) (order_removeEdge g a b)
        (directed_removeEdge g a b) (shape_removeEdge hg a b),
        (Shape.eraseEdge_ne_iff hg.isGraph).symm⟩

/-! ### Comparing two structures -/

/-- Tests that all give an answer are made one after the other. -/
theorem allM_ok {α : Type} {items : List α} {test : α → Except Fault Bool} {p : α → Bool}
    (htest : ∀ x ∈ items, test x = .ok (p x)) : items.allM test = .ok (items.all p) := by
  induction items with
  | nil => rfl
  | cons x items ih =>
      obtain ⟨hx, hitems⟩ := List.forall_mem_cons.mp htest
      rw [List.allM, hx, List.all_cons]
      cases p x with
      | false => rfl
      | true => exact ih hitems

/-- Inclusion is decided without a fault: an edge is only looked up once its source is a node of
both graphs. -/
theorem guarded_isSubgraphOf_eq (hg : g.Valid) (hh : h.Valid) :
    Guarded.isSubgraphOf g h = .ok (g.isSubgraphOf h) := by
  rw [Guarded.isSubgraphOf, isSubgraphOf]
  split
  next hnodes =>
    rw [hnodes, Bool.true_and]
    apply allM_ok
    intro a ha
    have hga : a < g.order := hg.lt_of_hasNode ((mem_nodes hg).mp ha)
    have hha : a < h.order := hh.lt_of_hasNode (List.all_eq_true.mp hnodes a ha)
    have hsuccessors : Guarded.successors g a = .ok (g.successors a) := by
      rw [Guarded.successors, hg.represents.checkNode hga]
      rfl
    have hedge : ∀ b ∈ (g.successors a).toList, Guarded.hasEdge h a b = .ok (h.hasEdge a b) := by
      intro b _
      rw [Guarded.hasEdge, hh.represents.checkNode hha]
      rfl
    rw [hsuccessors]
    exact allM_ok hedge
  next hnodes =>
    rw [Bool.eq_false_iff.mpr hnodes]
    rfl

/-- Inclusion and equality of two structures are those of the graphs they stand for. -/
theorem Represents.compare (hr : Represents n d H g) (hs : Represents m e K h) :
    (∃ included, Guarded.isSubgraphOf g h = .ok included ∧ (included = true ↔ H ≤ K)) ∧
      ((g == h) = true ↔ n = m ∧ d = e ∧ H = K) := by
  refine ⟨⟨_, guarded_isSubgraphOf_eq hr.valid hs.valid, ?_⟩, ?_⟩
  · rw [isSubgraphOf_iff hr.valid, hr.shape_eq, hs.shape_eq]
  · rw [beq_iff hr.valid hs.valid, hr.order_eq, hs.order_eq, hr.directed_eq, hs.directed_eq,
      hr.shape_eq, hs.shape_eq]
    tauto

/-! ### A whole run -/

/-- From any state on, a run follows the graph that the structure stands for. -/
theorem Represents.performAll (hr : Represents n d H g) (operations : List Operation)
    (hops : ∀ operation ∈ operations, operation.Inside n) :
    ∃ flags g' H', performAll g operations = .ok (flags, g') ∧
      Steps d H operations flags H' ∧ Represents n d H' g' := by
  induction operations generalizing g H with
  | nil => exact ⟨[], g, H, rfl, .nil, hr⟩
  | cons operation operations ih =>
      obtain ⟨hop, hops⟩ := List.forall_mem_cons.mp hops
      obtain ⟨changed, g₁, hrun, hr₁, hchanged⟩ := hr.perform hop
      obtain ⟨flags, g₂, H₂, hruns, hsteps, hr₂⟩ := ih hr₁ hops
      have hall : Operation.performAll g (operation :: operations) =
          .ok (changed :: flags, g₂) := by
        rw [Operation.performAll, hrun]
        dsimp only [bind, Except.bind]
        rw [hruns]
        rfl
      exact ⟨changed :: flags, g₂, H₂, hall, .cons hchanged hsteps, hr₂⟩

/-- A history inside of the universe never fails.  The structure is the graph with the same history,
the flags say which operations changed the graph, and inclusion and equality of the results of two
histories, over universes of any sizes, are those of the two graphs. -/
theorem performAll_represents (n m : ℕ) (d e : Bool) (operations others : List Operation)
    (hops : ∀ operation ∈ operations, operation.Inside n)
    (hothers : ∀ operation ∈ others, operation.Inside m) :
    ∃ flags g H, performAll (empty n d) operations = .ok (flags, g) ∧
      Steps d Shape.empty operations flags H ∧ Represents n d H g ∧
      ∃ flags' h K, performAll (empty m e) others = .ok (flags', h) ∧
        Steps e Shape.empty others flags' K ∧ Represents m e K h ∧
        (∃ included, Guarded.isSubgraphOf g h = .ok included ∧ (included = true ↔ H ≤ K)) ∧
        ((g == h) = true ↔ n = m ∧ d = e ∧ H = K) := by
  obtain ⟨flags, g, H, hrun, hsteps, hr⟩ := (represents_empty n d).performAll operations hops
  obtain ⟨flags', h, K, hrun', hsteps', hs⟩ := (represents_empty m e).performAll others hothers
  exact ⟨flags, g, H, hrun, hsteps, hr, flags', h, K, hrun', hsteps', hs, hr.compare hs⟩

/-- A node with a loop is removed together with its three edges; the node and the loop that are left
are those of a larger directed graph. -/
theorem performAll_represents_loop :
    let operations := [.addEdge 0 1, .addEdge 1 1, .addEdge 2 1, .addEdge 1 2, .addEdge 0 0,
      .removeNode 1, .removeNode 2, .removeEdge 2 0]
    let others := [.addEdge 0 0, .addNode 4]
    (∀ operation ∈ operations, operation.Inside 3) ∧
      (∀ operation ∈ others, operation.Inside 5) ∧
      ∃ g H, performAll (empty 3 false) operations =
          .ok ([true, true, true, false, true, true, true, false], g) ∧
        Represents 3 false H g ∧ g.numEdges = 1 ∧
        ∃ h K, performAll (empty 5 true) others = .ok ([true, true], h) ∧
          Represents 5 true K h ∧ Guarded.isSubgraphOf g h = .ok true ∧ H ≤ K ∧ (g == h) = false := by
  intro operations others
  have hops : ∀ operation ∈ operations, operation.Inside 3 := by
    simp [operations, Operation.Inside]
  have hothers : ∀ operation ∈ others, operation.Inside 5 := by
    simp [others, Operation.Inside]
  obtain ⟨flags, g, H, hrun, -, hr, flags', h, K, hrun', -, hs, ⟨included, htest, hle⟩, heq⟩ :=
    performAll_represents 3 5 false true operations others hops hothers
  have hflags : (performAll (empty 3 false) operations).map (fun r => (r.1, r.2.numEdges)) =
      .ok ([true, true, true, false, true, true, true, false], 1) := by decide +kernel
  have hflags' : (performAll (empty 5 true) others).map Prod.fst = .ok [true, true] := by
    decide +kernel
  have hincluded : (do
      let (_, g) ← performAll (empty 3 false) operations
      let (_, h) ← performAll (empty 5 true) others
      Guarded.isSubgraphOf g h) = .ok true := by decide +kernel
  rw [hrun] at hflags hincluded
  rw [hrun'] at hflags' hincluded
  obtain ⟨rfl, hcount⟩ := Prod.mk.inj (Except.ok.inj hflags)
  obtain rfl := Except.ok.inj hflags'
  have htrue : included = true := Except.ok.inj (htest.symm.trans hincluded)
  refine ⟨hops, hothers, g, H, hrun, hr, hcount, h, K, hrun', hs, htrue ▸ htest,
    hle.mp htrue, ?_⟩
  rw [Bool.eq_false_iff, ne_eq, heq]
  simp

end Graph

end GraphInterval
