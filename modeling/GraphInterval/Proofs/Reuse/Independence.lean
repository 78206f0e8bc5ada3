import GraphInterval.Proofs.Reuse.Prim
import GraphInterval.Proofs.Reuse.Propagators
import GraphInterval.Proofs.Reuse.Prune

/-!
# Earlier calls leave no trace

Propagators and finders are made once and called many times, with worklists,
marks and tables that a call leaves as it ends, also where it ends early.  What
a call answers depends on its arguments and on the size for which the object
was made, and on nothing else.
-/

namespace GraphInterval

open Attempt

/-- After any earlier calls, ones that failed included, on any graphs and with any costs, a
propagation from scratch ends like that of a new propagator and leaves the same domains and events;
a finder computes the one-tree of a new finder, its edges in the same order, and an analysis after
a computation that succeeded answers, changes the graph and leaves marginal costs like that of a new
finder.  Only a fault leaves a one-tree and marginal costs that mean nothing. -/
theorem reused_like_new (α : Type) [Scalar α] :
    (∀ (constraint : Constraint) (g₀ g : GraphVar) (start p fresh : Propagator),
      Propagator.make g₀ constraint = .ok start → Propagator.Used start p →
      Propagator.make g constraint = .ok fresh → g.order = g₀.order →
        Posted.observed Propagator.propagateFromScratch ⟨p, g⟩ =
          Posted.observed Propagator.propagateFromScratch ⟨fresh, g⟩) ∧
    (∀ (c fresh : Channel) (d : ChannelDomains),
        Posted.observed Channel.propagateFromScratch ⟨c, d⟩ =
          Posted.observed Channel.propagateFromScratch ⟨fresh, d⟩) ∧
    (∀ (n : ℕ) (p : Prim α) (costs : Table α) (g : GraphVar), Prim.Used n p →
        (Prim.compute costs g).reported Prim.tree p =
          (Prim.compute costs g).reported Prim.tree (Prim.make n)) ∧
    (∀ (n : ℕ) (k : Kruskal α) (costs : Table α) (g : GraphVar), Kruskal.Reached n k →
        (Kruskal.compute costs g).reported Kruskal.tree k =
          (Kruskal.compute costs g).reported Kruskal.tree (Kruskal.make n)) ∧
    (∀ (n : ℕ) (k k' : Kruskal α) (costs : Table α) (g : GraphVar) (budget : α),
      Kruskal.Reached n k → costs.Square n → Kruskal.compute costs g k = .ok () k' →
        ∃ l', Kruskal.compute costs g (Kruskal.make n) = .ok () l' ∧
          Posted.observed (Kruskal.prune budget) ⟨k', g⟩ =
            Posted.observed (Kruskal.prune budget) ⟨l', g⟩ ∧
          (Kruskal.prune budget).reported Kruskal.result ⟨k', g⟩ =
            (Kruskal.prune budget).reported Kruskal.result ⟨l', g⟩) := by
  refine ⟨?_, ?_, ?_, ?_, ?_⟩
  · intro constraint g₀ g start p fresh hstart hp hfresh horder
    exact hp.observed_eq hstart hfresh horder
  · intro c fresh d
    exact Posted.observed_eq (Channel.respects_propagateFromScratch _ _ ⟨rfl, trivial⟩)
  · intro n p costs g hp
    exact hp.compute_eq costs g
  · intro n k costs g hk
    exact hk.compute_eq costs g
  · intro n k k' costs g budget hk hcosts hcompute
    exact hk.prune_eq hcosts g hcompute budget

/-! ### After calls that failed -/

/-- Whether earlier calls left marks, nodes or edges behind in all that a propagator fills. -/
def Propagator.isLittered : Propagator → Bool
  | transitivity t => !t.enforced.isEmpty && !t.removed.isEmpty && !t.incident.isEmpty
  | connectivity c => c.search.reached.contains true && !c.candidates.isEmpty
  | degree p => !p.nodes.isEmpty && !p.incident.isEmpty

namespace Abandoned

/-- The graph over four nodes with some nodes and edges. -/
def spanned (nodes : List ℕ) (edges : List Edge) : Graph :=
  edges.foldl (fun g e => g.addEdge e.1 e.2) (nodes.foldl Graph.addNode (Graph.empty 4 false))

/-- Two mandatory nodes that only a third one joins, and a node out of reach. -/
def joinable : GraphVar :=
  { lower := spanned [0, 2] [], upper := spanned [3] [(0, 1), (1, 2)], log := {} }

/-- A mandatory graph that is not transitive, not connected, no matching and part of no one-tree.
Two loops are possible. -/
def hopeless : GraphVar :=
  { lower := spanned [3] [(0, 1), (1, 2)]
    upper := spanned [3] [(0, 0), (3, 3), (0, 1), (1, 2)]
    log := {} }

/-- A possible path with a mandatory edge at one end and a mandatory node at the other. -/
def path : GraphVar :=
  { lower := spanned [0] [(2, 3)], upper := spanned [] [(0, 1), (1, 2), (2, 3)], log := {} }

/-- All edges are possible, and two are mandatory. -/
def through (a b c : ℕ) : GraphVar :=
  (GraphVar.Mutation.enforceEdge b c).run.after
    ((GraphVar.Mutation.enforceEdge a b).run.after (GraphVar.unconstrained 4 false))

def constraints : List Constraint :=
  [.transitive, .connected, .degreeAtMost .neighbours (.uniform 1)]

/-- A new propagator for four nodes. -/
def new : Constraint → Propagator
  | .transitive => .transitivity {}
  | .connected => .connectivity { search := { reached := Array.replicate 4 false } }
  | .degreeAtMost orientation _ => .degree { orientation, bounds := Array.replicate 4 1 }

/-- A propagator after a propagation that succeeds. -/
def succeeded (constraint : Constraint) : Propagator :=
  (Propagator.propagateFromScratch.after ⟨new constraint, joinable⟩).propagator

/-- A propagator after one propagation that succeeds and one that fails. -/
def propagator (constraint : Constraint) : Propagator :=
  (Propagator.propagateFromScratch.after ⟨succeeded constraint, hopeless⟩).propagator

def values (members : List ℕ) : Values :=
  { members := members.foldl SparseSet.insert (SparseSet.empty 4), trail := {} }

/-- Successors that leave no direction for the edge between the first two nodes. -/
def undirectable : ChannelDomains :=
  { graph := hopeless, successors := #[values [2], values [2, 3], values [1], values [3]] }

/-- Successors of which two are no neighbours, and that leave a mandatory edge one direction. -/
def directable : ChannelDomains :=
  { graph := path, successors := #[values [1], values [0, 2, 3], values [1], values [0, 2]] }

/-- A channel after a propagation that fails. -/
def channel : Channel := (Channel.propagateFromScratch.after ⟨{}, undirectable⟩).propagator

def otherCosts : Table Exact := Table.ofFn 4 fun a b => .number (if a + b = 3 then 9 else 1)

def costs : Table Exact := Table.ofFn 4 fun a b => .number (a + b)

/-- A finder after a computation that succeeds. -/
def grown : Prim Exact := (Prim.compute otherCosts (through 1 3 2)).after (Prim.make 4)

/-- A finder after one computation that succeeds and one that fails. -/
def prim : Prim Exact := (Prim.compute otherCosts hopeless).after grown

/-- A finder after a computation that succeeds. -/
def selected : Kruskal Exact := (Kruskal.compute otherCosts (through 1 3 2)).after (Kruskal.make 4)

/-- A finder after an analysis whose decisions fail. -/
def pruned : Kruskal Exact := ((Kruskal.prune (.number 0)).after ⟨selected, hopeless⟩).propagator

/-- A finder after an analysis whose decisions fail and a computation that fails. -/
def kruskal : Kruskal Exact := (Kruskal.compute otherCosts hopeless).after pruned

theorem between_eq (v : GraphVar) (hv : v ∈ [joinable, hopeless, path]) :
    GraphVar.between? v.lower v.upper = some v := by
  simp only [List.mem_cons, List.not_mem_nil, or_false] at hv
  obtain rfl | rfl | rfl := hv <;> exact if_pos (by decide +kernel)

theorem make_eq {v : GraphVar} (horder : v.order = 4) (hdirected : v.directed = false) :
    ∀ constraint ∈ constraints, Propagator.make v constraint = .ok (new constraint) := by
  intro constraint hconstraint
  simp only [constraints, List.mem_cons, List.not_mem_nil, or_false] at hconstraint
  obtain rfl | rfl | rfl := hconstraint
  · rfl
  · rw [Propagator.make, Connectivity.make, horder, new]
  · rw [Propagator.make, DegreeLimit.make, horder, hdirected, new]
    rfl

theorem used_propagator (constraint : Constraint) :
    Propagator.Used (new constraint) (propagator constraint) := by
  -- states are folded by `rw`, as comparing a name with what it stands for runs the propagation
  have hsucceeded := (@Propagator.Used.new (new constraint)).propagateFromScratch joinable
  rw [← succeeded] at hsucceeded
  have hfailed := hsucceeded.propagateFromScratch hopeless
  rwa [← propagator] at hfailed

theorem used_prim : Prim.Used 4 prim :=
  (Prim.Used.make.compute otherCosts (through 1 3 2)).compute otherCosts hopeless

theorem reached_kruskal : Kruskal.Reached 4 kruskal := by
  have hselected : Kruskal.Reached 4 selected :=
    Kruskal.Reached.make.compute otherCosts (through 1 3 2)
  have hpruned := hselected.prune (.number 0) hopeless
  rw [← pruned] at hpruned
  exact hpruned.compute otherCosts hopeless

end Abandoned

open Abandoned in
/-- Every object worked on one graph, then failed on a graph with loops, the finders with other
costs, and what it had filled by then is still there.  On further graphs it does what a new object
does, and that is something. -/
theorem reused_like_new_after_failures :
    (∀ v ∈ [joinable, hopeless, path], GraphVar.between? v.lower v.upper = some v) ∧
    path.order = joinable.order ∧
    (∀ constraint ∈ constraints,
      Propagator.make joinable constraint = .ok (new constraint) ∧
        Propagator.make path constraint = .ok (new constraint) ∧
        Propagator.Used (new constraint) (propagator constraint) ∧
        Propagator.propagateFromScratch.outcome ⟨new constraint, joinable⟩ = .ok () ∧
        Propagator.propagateFromScratch.outcome ⟨succeeded constraint, hopeless⟩ ≠ .ok () ∧
        (propagator constraint).isLittered = true ∧
        Posted.observed Propagator.propagateFromScratch ⟨propagator constraint, path⟩ =
          Posted.observed Propagator.propagateFromScratch ⟨new constraint, path⟩ ∧
        (Posted.observed Propagator.propagateFromScratch ⟨new constraint, path⟩).2.numEvents = 1) ∧
    (Channel.propagateFromScratch.outcome ⟨{}, undirectable⟩ = .error .wipeout ∧
      channel.values = [1] ∧
      Posted.observed Channel.propagateFromScratch ⟨channel, directable⟩ =
        Posted.observed Channel.propagateFromScratch ⟨{}, directable⟩ ∧
      directable.allows 1 3 = true ∧
      (Posted.observed Channel.propagateFromScratch ⟨{}, directable⟩).2.allows 1 3 = false) ∧
    ((Prim.compute otherCosts hopeless).outcome grown = .error (.conflict OneTree.detector) ∧
      prim.tree.edges = #[(1, 2)] ∧ Prim.Used 4 prim ∧
      (Prim.compute costs (through 1 2 3)).reported Prim.tree prim =
        (Prim.compute costs (through 1 2 3)).reported Prim.tree (Prim.make 4)) ∧
    ((Kruskal.prune (.number 0)).outcome ⟨selected, hopeless⟩ = .error .wipeout ∧
      (Kruskal.compute otherCosts hopeless).outcome pruned = .error (.conflict OneTree.detector) ∧
      kruskal.tree.edges = #[(1, 2)] ∧ kruskal.analysis.toRemove = [(0, 0), (1, 2)] ∧
      kruskal.analysis.toEnforce = [(3, 1), (2, 3)] ∧ Kruskal.Reached 4 kruskal ∧
      (Kruskal.compute costs (through 1 2 3)).reported Kruskal.tree kruskal =
        (Kruskal.compute costs (through 1 2 3)).reported Kruskal.tree (Kruskal.make 4)) ∧
    costs.Square 4 ∧ ∃ k l, Kruskal.compute costs (through 1 2 3) kruskal = .ok () k ∧
      Kruskal.compute costs (through 1 2 3) (Kruskal.make 4) = .ok () l ∧
      (Kruskal.prune (.number 12)).outcome ⟨k, through 1 2 3⟩ =
        .ok { removed := 1, enforced := 1 } ∧
      Posted.observed (Kruskal.prune (.number 12)) ⟨k, through 1 2 3⟩ =
        Posted.observed (Kruskal.prune (.number 12)) ⟨l, through 1 2 3⟩ ∧
      (Kruskal.prune (.number 12)).reported Kruskal.result ⟨k, through 1 2 3⟩ =
        (Kruskal.prune (.number 12)).reported Kruskal.result ⟨l, through 1 2 3⟩ := by
  obtain ⟨hpropagators, hchannel, hprim, hkruskal, hprune⟩ := reused_like_new Exact
  have hstart : joinable.order = 4 ∧ joinable.directed = false := by decide +kernel
  have hpath : path.order = 4 ∧ path.directed = false := by decide +kernel
  have horder : path.order = joinable.order := hpath.1.trans hstart.1.symm
  have hcosts : costs.Square 4 := Table.square_ofFn 4 _
  have hruns : ∀ constraint ∈ constraints,
      Propagator.propagateFromScratch.outcome ⟨new constraint, joinable⟩ = .ok () ∧
        Propagator.propagateFromScratch.outcome ⟨succeeded constraint, hopeless⟩ ≠ .ok () ∧
        (propagator constraint).isLittered = true ∧
        (Posted.observed Propagator.propagateFromScratch ⟨new constraint, path⟩).2.numEvents =
          1 := by decide +kernel
  have hpasses : (Kruskal.compute costs (through 1 2 3)).passes (fun _ k => decide
      ((Kruskal.prune (.number 12)).outcome ⟨k, through 1 2 3⟩ =
        .ok { removed := 1, enforced := 1 })) kruskal = true := by decide +kernel
  refine ⟨between_eq, horder, fun constraint hconstraint => ?_, ?_, ?_, ?_, hcosts, ?_⟩
  · have hmake := make_eq hstart.1 hstart.2 constraint hconstraint
    have hfresh := make_eq hpath.1 hpath.2 constraint hconstraint
    have hused := used_propagator constraint
    obtain ⟨hsucceeds, hfails, hlittered, hinfers⟩ := hruns constraint hconstraint
    exact ⟨hmake, hfresh, hused, hsucceeds, hfails, hlittered,
      hpropagators constraint joinable path _ _ _ hmake hused hfresh horder, hinfers⟩
  · exact ⟨by decide +kernel, by decide +kernel, hchannel channel {} directable,
      by decide +kernel, by decide +kernel⟩
  · exact ⟨by decide +kernel, by decide +kernel, used_prim,
      hprim 4 prim costs (through 1 2 3) used_prim⟩
  · exact ⟨by decide +kernel, by decide +kernel, by decide +kernel, by decide +kernel,
      by decide +kernel, reached_kruskal, hkruskal 4 kruskal costs (through 1 2 3) reached_kruskal⟩
  · obtain ⟨⟨⟩, k, hcompute, hpruned⟩ := Attempt.passes_iff.mp hpasses
    obtain ⟨l, hnew, hobserved, hresult⟩ := hprune 4 kruskal k costs (through 1 2 3) (.number 12)
      reached_kruskal hcosts hcompute
    exact ⟨k, l, hcompute, hnew, of_decide_eq_true hpruned, hobserved, hresult⟩

end GraphInterval
