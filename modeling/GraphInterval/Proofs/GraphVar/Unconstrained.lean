import GraphInterval.Proofs.Graph.History
import GraphInterval.Proofs.GraphVar.Basic

/-!
# The unconstrained variable

The complete graph is built edge by edge, and a node only enters it with its
first edge.  From two nodes on every node has an edge, so the result has all
nodes and all edges between two distinct ones, and the variable below it admits
every graph without loops.  The complete graph over a single node is left
without that node, and so is every graph of the variable below it.
-/

namespace GraphInterval

namespace Shape

/-- All nodes below a number and all edges between two distinct ones. -/
def clique (n : ℕ) : Shape := ⟨fun v => v < n, fun a b => a < n ∧ b < n ∧ a ≠ b⟩

variable {d : Bool}

theorem node_foldl_insertEdge (edges : List Edge) (H : Shape) (v : ℕ) :
    (edges.foldl (fun H e => H.insertEdge d e.1 e.2) H).node v ↔
      (∃ e ∈ edges, v = e.1 ∨ v = e.2) ∨ H.node v := by
  induction edges generalizing H with
  | nil => simp
  | cons e edges ih =>
      rw [List.foldl_cons, ih, List.exists_mem_cons_iff]
      simp only [insertEdge, or_assoc, or_left_comm]

theorem edge_foldl_insertEdge (edges : List Edge) (H : Shape) (a b : ℕ) :
    (edges.foldl (fun H e => H.insertEdge d e.1 e.2) H).edge a b ↔
      (∃ e ∈ edges, SameEdge d e.1 e.2 a b) ∨ H.edge a b := by
  induction edges generalizing H with
  | nil => simp
  | cons e edges ih =>
      rw [List.foldl_cons, ih, List.exists_mem_cons_iff]
      simp only [insertEdge, or_assoc, or_left_comm]

end Shape

namespace Graph

variable {n : ℕ} {d : Bool} {g : Graph} {H : Shape}

/-! ### The two loops as one list of edges -/

/-- The edges of the complete graph in the order in which they are added. -/
def distinctPairs (n : ℕ) : List Edge :=
  (List.range n).flatMap fun a => ((List.range n).filter (a ≠ ·)).map (a, ·)

theorem mem_distinctPairs {e : Edge} :
    e ∈ distinctPairs n ↔ e.1 < n ∧ e.2 < n ∧ e.1 ≠ e.2 := by
  obtain ⟨a, b⟩ := e
  simp only [distinctPairs, List.mem_flatMap, List.mem_map, List.mem_filter, List.mem_range,
    Prod.mk.injEq, decide_eq_true_eq]
  grind

theorem addFan_eq (g : Graph) (a : ℕ) :
    g.addFan a = (((List.range g.order).filter (a ≠ ·)).map (a, ·)).foldl
      (fun g e => g.addEdge e.1 e.2) g := by
  rw [addFan, List.foldl_map, List.foldl_filter]
  congr 1
  funext g b
  by_cases hab : a = b <;> simp [hab]

theorem order_addFan (g : Graph) (a : ℕ) : (g.addFan a).order = g.order := by
  rw [addFan_eq]
  generalize ((List.range g.order).filter (a ≠ ·)).map (a, ·) = edges
  induction edges generalizing g with
  | nil => rfl
  | cons e edges ih => rw [List.foldl_cons, ih, order_addEdge]

theorem foldl_addFan (sources : List ℕ) (horder : g.order = n) :
    sources.foldl addFan g =
      (sources.flatMap fun a => ((List.range n).filter (a ≠ ·)).map (a, ·)).foldl
        (fun g e => g.addEdge e.1 e.2) g := by
  induction sources generalizing g with
  | nil => rfl
  | cons a sources ih =>
      rw [List.foldl_cons, ih ((order_addFan g a).trans horder), List.flatMap_cons,
        List.foldl_append, addFan_eq, horder]

theorem complete_eq (n : ℕ) (d : Bool) :
    complete n d = (distinctPairs n).foldl (fun g e => g.addEdge e.1 e.2) (empty n d) :=
  foldl_addFan _ (SparseSet.capacity_empty n)

/-! ### The complete graph -/

theorem Represents.foldl_addEdge (hr : Represents n d H g) (edges : List Edge)
    (hedges : ∀ e ∈ edges, e.1 < n ∧ e.2 < n) :
    Represents n d (edges.foldl (fun H e => H.insertEdge d e.1 e.2) H)
      (edges.foldl (fun g e => g.addEdge e.1 e.2) g) := by
  induction edges generalizing g H with
  | nil => exact hr
  | cons e edges ih =>
      have hfirst := hedges e List.mem_cons_self
      refine ih ?_ fun e' he' => hedges e' (List.mem_cons_of_mem e he')
      obtain rfl := hr.order_eq
      obtain rfl := hr.directed_eq
      obtain rfl := hr.shape_eq
      exact .of_shape (hr.valid.addEdge hfirst.1 hfirst.2) (order_addEdge g e.1 e.2)
        (directed_addEdge g e.1 e.2) (shape_addEdge hr.valid hfirst.1 hfirst.2)

/-- The two loops add every edge between two distinct nodes, and nothing else adds a node. -/
theorem represents_complete (n : ℕ) (d : Bool) :
    Represents n d ⟨fun v => v < n ∧ n ≠ 1, fun a b => a < n ∧ b < n ∧ a ≠ b⟩ (complete n d) := by
  have hr := (represents_empty n d).foldl_addEdge (distinctPairs n) fun e he =>
    ⟨(mem_distinctPairs.mp he).1, (mem_distinctPairs.mp he).2.1⟩
  rw [← complete_eq] at hr
  convert hr using 1
  rw [Shape.ext_iff']
  constructor
  · intro v
    rw [Shape.node_foldl_insertEdge]
    simp only [mem_distinctPairs, Shape.empty, or_false]
    constructor
    · rintro ⟨hv, hn⟩
      -- another node is the other end of an edge at the node
      obtain ⟨w, hw, hvw⟩ : ∃ w < n, v ≠ w := by
        by_cases hzero : v = 0
        · exact ⟨1, by omega, by omega⟩
        · exact ⟨0, by omega, hzero⟩
      exact ⟨(v, w), ⟨hv, hw, hvw⟩, .inl rfl⟩
    · rintro ⟨⟨a, b⟩, ⟨ha, hb, hab⟩, rfl | rfl⟩
      · exact ⟨ha, by omega⟩
      · exact ⟨hb, by omega⟩
  · intro a b
    rw [Shape.edge_foldl_insertEdge]
    simp only [mem_distinctPairs, Shape.empty, or_false]
    constructor
    · intro hab
      exact ⟨(a, b), hab, .inl ⟨rfl, rfl⟩⟩
    · rintro ⟨e, ⟨ha, hb, hab⟩, ⟨rfl, rfl⟩ | ⟨-, rfl, rfl⟩⟩
      · exact ⟨ha, hb, hab⟩
      · exact ⟨hb, ha, hab.symm⟩

theorem arcSet_complete (n : ℕ) (d : Bool) :
    (complete n d).arcSet = (Finset.range n).offDiag := by
  have hr := represents_complete n d
  ext e
  rw [mem_arcSet hr.valid, hr.edge_iff, Finset.mem_offDiag, Finset.mem_range, Finset.mem_range]

theorem numEdges_complete (n : ℕ) (d : Bool) :
    (complete n d).numEdges = if d then n * (n - 1) else n * (n - 1) / 2 := by
  have hr := represents_complete n d
  have hcard : (complete n d).arcSet.card = n * (n - 1) := by
    rw [arcSet_complete, Finset.offDiag_card, Finset.card_range, Nat.mul_sub_one]
  have hloops : (List.range (complete n d).order).countP
      (fun v => (complete n d).hasEdge v v) = 0 := by
    rw [List.countP_eq_zero]
    intro v _ hv
    exact ((hr.edge_iff v v).mp hv).2.2 rfl
  simp only [numEdges, foldl_size_successors hr.valid, hr.directed_eq, hcard, hloops, Nat.add_zero]

end Graph

namespace GraphVar

variable {n : ℕ} {d : Bool} {H : Shape} {v : ℕ}

/-! ### The variable below the complete graph -/

theorem unconstrained_admits_iff :
    (unconstrained n d).Admits H ↔
      H.IsGraph d ∧ H ≤ Shape.clique n ∧ (n ≠ 1 ∨ H = Shape.empty) := by
  have hr := Graph.represents_complete n d
  have hlower : (unconstrained n d).lower.shape = Shape.empty :=
    (Graph.represents_empty n d).shape_eq
  have hupper : (unconstrained n d).upper.shape = _ := hr.shape_eq
  have hdirected : (unconstrained n d).directed = d := hr.directed_eq
  have hempty : ∀ K, Shape.empty ≤ K := fun K => ⟨fun _ h => h.elim, fun _ _ h => h.elim⟩
  constructor
  · rintro ⟨hgraph, -, hle⟩
    rw [hdirected] at hgraph
    rw [hupper] at hle
    refine ⟨hgraph, ⟨fun v hv => (hle.1 v hv).1, hle.2⟩, ?_⟩
    by_cases hn : n = 1
    · refine .inr (Shape.le_antisymm ⟨fun v hv => (hle.1 v hv).2 hn, fun a b hab => ?_⟩ (hempty H))
      exact (hle.1 a (hgraph.source hab)).2 hn
    · exact .inl hn
  · rintro ⟨hgraph, hle, hn⟩
    refine ⟨hdirected.symm ▸ hgraph, hlower ▸ hempty H, ?_⟩
    rw [hupper]
    obtain hn | rfl := hn
    · exact ⟨fun v hv => ⟨hle.1 v hv, hn⟩, hle.2⟩
    · exact hempty _

theorem enforceNode_unconstrained :
    (∃ g, enforceNode v (unconstrained n d) = .ok true g) ↔ v < n ∧ n ≠ 1 := by
  have hnode : (unconstrained n d).isPotentialNode v = true ↔ v < n ∧ n ≠ 1 :=
    (Graph.represents_complete n d).node_iff v
  have hfree : (unconstrained n d).isMandatoryNode v = false := SparseSet.contains_empty n v
  rw [← hnode, enforceNode_eq, hfree]
  cases (unconstrained n d).isPotentialNode v <;> simp

/-- The complete graph has exactly the edges between two distinct nodes, and all nodes unless there
is only one.  Its subgraphs are the graphs of the unconstrained variable, in which every node that
it has can be enforced. -/
theorem complete_unless_single (n : ℕ) (d : Bool) :
    (∀ v, (Graph.complete n d).hasNode v = true ↔ v < n ∧ n ≠ 1) ∧
      (∀ a b, (Graph.complete n d).hasEdge a b = true ↔ a < n ∧ b < n ∧ a ≠ b) ∧
      (Graph.complete n d).numEdges = (if d then n * (n - 1) else n * (n - 1) / 2) ∧
      (∀ H, (unconstrained n d).Admits H ↔
        H.IsGraph d ∧ H ≤ Shape.clique n ∧ (n ≠ 1 ∨ H = Shape.empty)) ∧
      ∀ v, (∃ g, enforceNode v (unconstrained n d) = .ok true g) ↔ v < n ∧ n ≠ 1 := by
  have hr := Graph.represents_complete n d
  exact ⟨hr.node_iff, hr.edge_iff, Graph.numEdges_complete n d,
    fun _ => unconstrained_admits_iff, fun _ => enforceNode_unconstrained⟩

/-- A single node is missing in the complete graph over it.  It cannot be enforced in the
unconstrained variable, which does not admit the graph of that node either. -/
theorem single_node_missing :
    (Graph.complete 1 false).hasNode 0 = false ∧
      (enforceNode 0).failsWith .wipeout (unconstrained 1 false) = true ∧
      (Shape.clique 1).IsGraph false ∧ ¬ (unconstrained 1 false).Admits (Shape.clique 1) := by
  refine ⟨by decide +kernel, by decide +kernel, ⟨And.left, fun h => h.2.1, fun _ _ _ h => ?_⟩, ?_⟩
  · exact ⟨h.2.1, h.1, h.2.2.symm⟩
  · intro h
    have hmissing : (Graph.complete 1 false).hasNode 0 = false := by decide +kernel
    exact absurd (hmissing.symm.trans (h.le_upper.1 0 Nat.zero_lt_one)) Bool.false_ne_true

end GraphVar

end GraphInterval
