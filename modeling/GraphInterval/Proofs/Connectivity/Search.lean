import GraphInterval.Connectivity
import GraphInterval.Proofs.Connectivity.Component

/-!
# Searching the possible edges

A search marks the nodes that walks around the excluded node lead to from its
root.  Every marked node waits on the frontier once, or it is settled: then all
its neighbours are marked.  A turn settles the node that it takes off the
frontier and moves its unmarked neighbours there, so the number of nodes that
wait or were not reached becomes smaller with every turn.

A search therefore ends without a bound on its turns, and it follows the edges
of every node that it marks exactly once.
-/

namespace GraphInterval

namespace Search

variable {g : GraphVar} {around : Option Nat} {r v x y : Nat} {s t : Search}

/-- The number of nodes that wait or were not reached. -/
def pending (s : Search) : Nat := s.frontier.length + s.reached.count false

theorem mem_adjacent (hg : g.Valid) : y ∈ adjacent g x ↔ g.upper.shape.Adjacent x y := by
  rw [adjacent, List.mem_append, Graph.mem_successors hg.upper, Graph.mem_predecessors hg.upper]
  rfl

theorem hasReached_eq (h : v < s.reached.size) : s.hasReached v = s.reached[v] := by
  simp [hasReached, h]

/-! ### Visits -/

theorem visit_of_reached (h : s.hasReached v = true) : s.visit v = s := if_pos h

theorem visit_of_not_reached (h : s.hasReached v = false) :
    s.visit v =
      { reached := s.reached.setIfInBounds v true, frontier := v :: s.frontier } := by
  simp [visit, h]

theorem hasReached_visit (hv : v < s.reached.size) (x : Nat) :
    (s.visit v).hasReached x = true ↔ x = v ∨ s.hasReached x = true := by
  cases h : s.hasReached v with
  | true =>
      rw [visit_of_reached h]
      refine ⟨.inr, ?_⟩
      rintro (rfl | hx)
      · exact h
      · exact hx
  | false =>
      rw [visit_of_not_reached h]
      simp only [hasReached, Array.getD_eq_getD_getElem?, Array.getElem?_setIfInBounds]
      grind

theorem size_visit (s : Search) (v : Nat) : (s.visit v).reached.size = s.reached.size := by
  unfold visit
  split
  · rfl
  · simp

theorem pending_visit (hv : v < s.reached.size) : (s.visit v).pending = s.pending := by
  cases h : s.hasReached v with
  | true => rw [visit_of_reached h]
  | false =>
      have hentry : s.reached[v] = false := (hasReached_eq hv).symm.trans h
      have hpos : 0 < s.reached.count false :=
        Array.count_pos_iff.mpr (hentry ▸ Array.getElem_mem hv)
      rw [visit_of_not_reached h, pending, pending, Array.setIfInBounds_def, dif_pos hv,
        Array.count_set, hentry, List.length_cons]
      simp
      omega

theorem mem_frontier_visit (s : Search) (v x : Nat) :
    x ∈ (s.visit v).frontier ↔ x ∈ s.frontier ∨ (x = v ∧ s.hasReached v = false) := by
  cases h : s.hasReached v with
  | true => simp [visit_of_reached h]
  | false => simp [visit_of_not_reached h, or_comm]

/-- Visits mark their nodes, and queue those of them that are new. -/
theorem foldl_visit_spec (nodes : List Nat) (hnodes : ∀ x ∈ nodes, x < s.reached.size) :
    (nodes.foldl visit s).reached.size = s.reached.size ∧
      (nodes.foldl visit s).pending = s.pending ∧
      (∀ x, (nodes.foldl visit s).hasReached x = true ↔ x ∈ nodes ∨ s.hasReached x = true) ∧
      ∀ x, x ∈ (nodes.foldl visit s).frontier ↔
        x ∈ s.frontier ∨ (x ∈ nodes ∧ s.hasReached x = false) := by
  induction nodes generalizing s with
  | nil => simp
  | cons v nodes ih =>
      have hv : v < s.reached.size := hnodes v List.mem_cons_self
      have hsize := size_visit s v
      obtain ⟨hsize', hpending, hreached, hfrontier⟩ := ih (s := s.visit v)
        fun x hx => hsize.symm ▸ hnodes x (List.mem_cons_of_mem v hx)
      rw [List.foldl_cons]
      refine ⟨hsize'.trans hsize, hpending.trans (pending_visit hv), fun x => ?_, fun x => ?_⟩
      · rw [hreached, hasReached_visit hv, List.mem_cons]
        tauto
      · have hvisit := hasReached_visit hv x
        rw [hfrontier, mem_frontier_visit, List.mem_cons]
        grind

/-- The waiting nodes are marked, and none of them waits twice. -/
structure Queued (s : Search) : Prop where
  marked : ∀ v ∈ s.frontier, s.hasReached v = true
  nodup : s.frontier.Nodup

theorem Queued.visit (h : s.Queued) (hv : v < s.reached.size) : (s.visit v).Queued := by
  refine ⟨fun x hx => ?_, ?_⟩
  · rw [hasReached_visit hv]
    exact ((mem_frontier_visit s v x).mp hx).symm.imp And.left (h.marked x)
  · cases hnew : s.hasReached v with
    | true =>
        rw [visit_of_reached hnew]
        exact h.nodup
    | false =>
        rw [visit_of_not_reached hnew]
        refine List.nodup_cons.mpr ⟨fun hwaits => ?_, h.nodup⟩
        exact absurd (hnew.symm.trans (h.marked v hwaits)) (by simp)

theorem Queued.foldl_visit (h : s.Queued) (nodes : List Nat)
    (hnodes : ∀ x ∈ nodes, x < s.reached.size) : (nodes.foldl Search.visit s).Queued := by
  induction nodes generalizing s with
  | nil => exact h
  | cons v nodes ih =>
      apply ih (h.visit (hnodes v List.mem_cons_self))
      rw [size_visit]
      exact fun x hx => hnodes x (List.mem_cons_of_mem v hx)

/-! ### The turns of a search -/

/-- A node is settled once it is marked and waits no longer. -/
def Settled (s : Search) (v : Nat) : Prop := s.hasReached v = true ∧ v ∉ s.frontier

/-- The neighbours of a node are on record, and they have marks. -/
structure InRange (g : GraphVar) (s : Search) (node : Nat) : Prop where
  outgoing : node < g.upper.outgoing.size
  incoming : g.upper.directed = true → node < g.upper.incoming.size
  marks : ∀ w ∈ adjacent g node, w < s.reached.size

/-- A search without a bound takes turns until no node waits, and every turn finds what it looks
up; the nodes whose edges it follows. -/
inductive Follows (g : GraphVar) (around : Option Nat) : Search → List Nat → Search → Prop where
  | done {s : Search} : s.frontier = [] → Follows g around s [] s
  | turn {s t u : Search} {node : Nat} {rest nodes : List Nat} :
      s.frontier = node :: rest → InRange g s node → Search.step g around s = some t →
      Follows g around t nodes u → Follows g around s (node :: nodes) u

/-- A search with a bound does what the search without it does, if the bound is large enough. -/
theorem Follows.iterate_eq {nodes : List Nat} (h : Follows g around s nodes t) {bound : Nat}
    (hbound : nodes.length ≤ bound) : iterate (Search.step g around) bound s = t := by
  induction h generalizing bound with
  | @done s hempty =>
      have hnone : Search.step g around s = none := by rw [Search.step, hempty]
      exact iterate_of_eq_none hnone bound
  | turn _ _ hstep _ ih =>
      cases bound with
      | zero => exact absurd hbound (Nat.not_succ_le_zero _)
      | succ bound =>
          rw [iterate, hstep]
          exact ih (Nat.le_of_succ_le_succ hbound)

/-- A turn marks the neighbours of a node, except for the excluded one, and settles that node. -/
structure Turn (g : GraphVar) (around : Option Nat) (node : Nat) (s t : Search) : Prop where
  size_eq : t.reached.size = s.reached.size
  pending_lt : t.pending < s.pending
  queued : t.Queued
  reached : ∀ v, t.hasReached v = true ↔
    (g.upper.shape.Adjacent node v ∧ some v ≠ around) ∨ s.hasReached v = true
  settled : ∀ v, t.Settled v ↔ s.Settled v ∨ v = node

theorem exists_turn (around : Option Nat) (hg : g.Valid) (hs : s.Queued) {node : Nat}
    {rest : List Nat} (hfrontier : s.frontier = node :: rest) (hrange : InRange g s node) :
    ∃ t, Search.step g around s = some t ∧ Turn g around node s t := by
  have hmem : ∀ v, v ∈ (adjacent g node).filter (some · != around) ↔
      g.upper.shape.Adjacent node v ∧ some v ≠ around := by
    intro v
    rw [List.mem_filter, mem_adjacent hg, bne_iff_ne]
  have hlt : ∀ v ∈ (adjacent g node).filter (some · != around), v < s.reached.size :=
    fun v hv => hrange.marks v (List.mem_of_mem_filter hv)
  have hnode : s.hasReached node = true := hs.marked node (hfrontier ▸ List.mem_cons_self)
  have hnodup := List.nodup_cons.mp (hfrontier ▸ hs.nodup)
  have hrest : ({ s with frontier := rest } : Search).Queued :=
    ⟨fun v hv => hs.marked v (hfrontier ▸ List.mem_cons_of_mem node hv), hnodup.2⟩
  have hqueued := hrest.foldl_visit _ hlt
  obtain ⟨hsize, hpending, hreached, hwaits⟩ :=
    foldl_visit_spec (s := { s with frontier := rest }) _ hlt
  refine ⟨_, by rw [Search.step, hfrontier], hsize, ?_, hqueued, fun v => ?_, fun v => ?_⟩
  · rw [hpending, pending, pending, hfrontier, List.length_cons]
    dsimp only
    omega
  · rw [hreached, hmem]
    rfl
  · -- a node that is new waits, so among the marked ones only `node` left the frontier
    rw [Settled, Settled, hreached, hwaits, hfrontier, List.mem_cons]
    change (_ ∨ s.hasReached v = true) ∧ ¬ (_ ∨ (_ ∧ s.hasReached v = false)) ↔ _
    by_cases hv : v = node
    · subst hv
      simp [hnode, hnodup.1]
    · rw [or_iff_left hv]
      cases s.hasReached v with
      | true => simp [hv]
      | false => simp +contextual [hv]

/-! ### The invariant of a search -/

/-- The marked nodes are joined to the root, and those that are settled have their neighbours
marked. -/
structure Exploring (g : GraphVar) (around : Option Nat) (r : Nat) (s : Search) : Prop where
  order_le : g.order ≤ s.reached.size
  root : s.hasReached r = true
  joined : ∀ v, s.hasReached v = true → g.upper.shape.Joins around r v
  queued : s.Queued
  closed : ∀ v, s.Settled v →
    ∀ w, g.upper.shape.Adjacent v w → some w ≠ around → s.hasReached w = true

namespace Exploring

/-- The edges of a marked node can be followed. -/
theorem inRange (h : Exploring g around r s) (hg : g.Valid) (hr : r < g.order)
    (hv : s.hasReached v = true) : InRange g s v := by
  have hlt : v < g.order := hg.lt_of_joins hr (h.joined v hv)
  refine ⟨hg.upper.outgoing.size_eq.symm ▸ hlt,
    fun hd => (hg.upper.incoming hd).size_eq.symm ▸ hlt, fun w hw => ?_⟩
  exact (hg.lt_of_adjacent ((mem_adjacent hg).mp hw)).trans_le h.order_le

theorem turn (h : Exploring g around r s) (hv : s.hasReached v = true)
    (ht : Turn g around v s t) : Exploring g around r t := by
  refine ⟨h.order_le.trans_eq ht.size_eq.symm, (ht.reached r).mpr (.inr h.root), fun w hw => ?_,
    ht.queued, fun x hx w hxw hw => (ht.reached w).mpr ?_⟩
  · obtain hstep | hw := (ht.reached w).mp hw
    · exact (h.joined v hv).tail hstep
    · exact h.joined w hw
  · obtain hx | rfl := (ht.settled x).mp hx
    · exact .inr (h.closed x hx w hxw hw)
    · exact .inl ⟨hxw, hw⟩

/-- From every state with the invariant a search ends.  It follows the edges of the nodes that it
settles, each of them once. -/
theorem follows (h : Exploring g around r s) (hg : g.Valid) (hr : r < g.order) :
    ∃ nodes t, Follows g around s nodes t ∧ t.frontier = [] ∧ Exploring g around r t ∧
      nodes.Nodup ∧ (∀ v ∈ nodes, ¬ s.Settled v) ∧
      ∀ v, t.Settled v ↔ s.Settled v ∨ v ∈ nodes := by
  induction hpending : s.pending using Nat.strong_induction_on generalizing s with
  | h bound ih =>
  cases hfrontier : s.frontier with
  | nil =>
      refine ⟨[], s, .done hfrontier, hfrontier, h, List.nodup_nil, ?_, fun v => ?_⟩
      · exact fun v hv => absurd hv List.not_mem_nil
      · rw [or_iff_left List.not_mem_nil]
  | cons node rest =>
      have hwaits : node ∈ s.frontier := hfrontier ▸ List.mem_cons_self
      have hnode := h.queued.marked node hwaits
      have hrange := h.inRange hg hr hnode
      obtain ⟨t, hstep, ht⟩ := exists_turn around hg h.queued hfrontier hrange
      obtain ⟨nodes, u, hfollows, hempty, hu, hnodup, hnew, hsettled⟩ :=
        ih _ (hpending ▸ ht.pending_lt) (h.turn hnode ht) rfl
      have honce : node ∉ nodes := fun hagain =>
        hnew node hagain ((ht.settled node).mpr (.inr rfl))
      refine ⟨node :: nodes, u, .turn hfrontier hrange hstep hfollows, hempty, hu,
        List.nodup_cons.mpr ⟨honce, hnodup⟩, fun v hv => ?_, fun v => ?_⟩
      · obtain rfl | hv := List.mem_cons.mp hv
        · exact fun hold => hold.2 hwaits
        · exact fun hold => hnew v hv ((ht.settled v).mpr (.inl hold))
      · rw [hsettled, ht.settled, List.mem_cons, or_assoc]

/-- When no node waits, the marked nodes are those that are joined to the root. -/
theorem hasReached_iff (h : Exploring g around r s) (hempty : s.frontier = []) (v : Nat) :
    s.hasReached v = true ↔ g.upper.shape.Joins around r v := by
  refine ⟨h.joined v, fun hv => ?_⟩
  induction hv with
  | refl => exact h.root
  | @tail x y _ hstep ih =>
      exact h.closed x ⟨ih, hempty ▸ List.not_mem_nil⟩ y hstep.1 hstep.2

end Exploring

/-! ### Whole searches -/

/-- The search without marks and waiting nodes. -/
def cleared (s : Search) : Search :=
  { reached := Array.replicate s.reached.size false, frontier := [] }

theorem hasReached_cleared (s : Search) (v : Nat) : s.cleared.hasReached v = false := by
  simp only [cleared, hasReached, Array.getD_eq_getD_getElem?, Array.getElem?_replicate]
  split <;> rfl

theorem Exploring.start (around : Option Nat) (hr : r < g.order) (hs : g.order ≤ s.reached.size) :
    Exploring g around r (s.cleared.visit r) ∧ ∀ v, ¬ (s.cleared.visit r).Settled v := by
  have hsize : s.cleared.reached.size = s.reached.size := Array.size_replicate
  have hlt : r < s.cleared.reached.size := hsize ▸ hr.trans_le hs
  have hreached : ∀ v, (s.cleared.visit r).hasReached v = true ↔ v = r := by
    simpa [hasReached_cleared] using hasReached_visit hlt
  have hfrontier : (s.cleared.visit r).frontier = [r] := by
    rw [visit_of_not_reached (hasReached_cleared s r)]
    rfl
  have hfresh : ∀ v, ¬ (s.cleared.visit r).Settled v := by
    intro v hv
    rw [Settled, hreached, hfrontier, List.mem_singleton] at hv
    exact hv.2 hv.1
  have hqueued : s.cleared.Queued := ⟨fun v hv => absurd hv List.not_mem_nil, List.nodup_nil⟩
  refine ⟨⟨?_, (hreached r).mpr rfl, fun v hv => ?_, hqueued.visit hlt,
    fun v hv => absurd hv (hfresh v)⟩, hfresh⟩
  · rw [size_visit, hsize]
    exact hs
  · obtain rfl := (hreached v).mp hv
    exact .refl

theorem size_explore (s : Search) (g : GraphVar) (root : Nat) (excluded : Option Nat) :
    (s.explore g root excluded).reached.size = s.reached.size := by
  apply iterate_preserves (P := fun s' : Search => s'.reached.size = s.reached.size)
  · intro s' next hs' hstep
    rw [step] at hstep
    split at hstep
    next => cases hstep
    next =>
      obtain rfl := Option.some.inj hstep
      apply List.foldlRecOn (motive := fun s' : Search => s'.reached.size = s.reached.size)
      · exact hs'
      · exact fun s' hs' v _ => (size_visit s' v).trans hs'
  · exact (size_visit _ root).trans Array.size_replicate

/-- The bound of a search is no restriction: it has as many turns as it marks nodes. -/
theorem explore_follows (around : Option Nat) (hg : g.Valid) (hr : r < g.order)
    (hs : g.order ≤ s.reached.size) :
    Exploring g around r (s.explore g r around) ∧ (s.explore g r around).frontier = [] ∧
      ∃ nodes, Follows g around (s.cleared.visit r) nodes (s.explore g r around) ∧
        nodes.Nodup ∧ ∀ v, v ∈ nodes ↔ (s.explore g r around).hasReached v = true := by
  obtain ⟨hstart, hfresh⟩ := Exploring.start around hr hs
  obtain ⟨nodes, t, hfollows, hempty, ht, hnodup, -, hsettled⟩ := hstart.follows hg hr
  have hmem : ∀ v, v ∈ nodes ↔ t.hasReached v = true := by
    intro v
    calc v ∈ nodes ↔ (s.cleared.visit r).Settled v ∨ v ∈ nodes := (or_iff_right (hfresh v)).symm
      _ ↔ t.Settled v := (hsettled v).symm
      _ ↔ t.hasReached v = true := and_iff_left (hempty ▸ List.not_mem_nil)
  have hrange : nodes ⊆ List.range g.order := fun v hv =>
    List.mem_range.mpr (hg.lt_of_joins hr (ht.joined v ((hmem v).mp hv)))
  have hlength : nodes.length ≤ g.order := by
    simpa using (hnodup.subperm hrange).length_le
  have hend : s.explore g r around = t := hfollows.iterate_eq hlength
  rw [hend]
  exact ⟨ht, hempty, nodes, hfollows, hnodup, hmem⟩

/-- A search marks exactly the nodes that paths around the excluded node lead to. -/
theorem explore_spec (around : Option Nat) (hg : g.Valid) (hr : r < g.order)
    (hs : s.reached.size = g.order) :
    (s.explore g r around).reached.size = g.order ∧
      ∀ v, (s.explore g r around).hasReached v = true ↔ g.upper.shape.Joins around r v := by
  obtain ⟨hend, hempty, -⟩ := explore_follows around hg hr hs.ge
  exact ⟨(size_explore s g r around).trans hs, hend.hasReached_iff hempty⟩

/-- A search from any node of the universe, around any other node or none, ends without a bound on
its turns, whatever marks and waiting nodes an earlier search left.  It follows the edges of each
node that it marks once, and marks exactly the nodes to which a walk along possible edges in either
direction leads that avoids the excluded node. -/
theorem explore_exact (hg : g.Reachable) (hr : r < g.order) (haround : around ≠ some r)
    (hs : g.order ≤ s.reached.size) :
    (∃ nodes, Follows g around (s.cleared.visit r) nodes (s.explore g r around) ∧ nodes.Nodup ∧
      ∀ v, v ∈ nodes ↔ (s.explore g r around).hasReached v = true) ∧
    (s.explore g r around).frontier = [] ∧
    (s.explore g r around).reached.size = s.reached.size ∧
    ∀ v, (s.explore g r around).hasReached v = true ↔
      ∃ nodes, g.upper.shape.IsWalk around r v nodes := by
  obtain ⟨hend, hempty, hfollows⟩ := explore_follows around hg.valid hr hs
  refine ⟨hfollows, hempty, size_explore s g r around, fun v => ?_⟩
  rw [hend.hasReached_iff hempty, Shape.joins_iff_exists_isWalk haround]

/-- A walk leads from node 0 to node 2, against the first of two arcs and along the second one.  The
only ways on to node 4 enter node 3.  All nodes are marked before the search, and some wait that it
never reaches. -/
theorem explore_exact_arcs :
    let g : GraphVar :=
      { lower := Graph.empty 5 true
        upper := (((((Graph.empty 5 true).addEdge 1 0).addEdge 1 2).addEdge 2 1).addEdge
          2 3).addEdge 4 3
        log := {} }
    let s : Search := { reached := Array.replicate 5 true, frontier := [4, 9, 4] }
    g.Reachable ∧ 0 < g.order ∧ some 3 ≠ some 0 ∧ g.order ≤ s.reached.size ∧
      (∃ nodes, g.upper.shape.IsWalk (some 3) 0 2 nodes) ∧
      (∀ nodes, ¬ g.upper.shape.IsWalk (some 3) 0 4 nodes) ∧
      ∃ nodes, Follows g (some 3) (s.cleared.visit 0) nodes (s.explore g 0 (some 3)) ∧
        2 ∈ nodes ∧ 4 ∉ nodes := by
  intro g s
  have hg : g.Reachable := by
    have h0 : 0 < 5 := by decide
    have h1 : 1 < 5 := by decide
    have h2 : 2 < 5 := by decide
    have h3 : 3 < 5 := by decide
    have h4 : 4 < 5 := by decide
    have hupper := (((((Graph.Built.empty (n := 5) (d := true)).addEdge h1 h0).addEdge
      h1 h2).addEdge h2 h1).addEdge h2 h3).addEdge h4 h3
    exact .of_nested .empty hupper (by decide +kernel)
  have hreached : (s.explore g 0 (some 3)).hasReached 2 = true := by decide +kernel
  have hmissed : ¬ (s.explore g 0 (some 3)).hasReached 4 = true := by decide +kernel
  have haround : some 3 ≠ some 0 := by decide
  obtain ⟨⟨nodes, hfollows, -, hmem⟩, -, -, hwalks⟩ :=
    explore_exact (s := s) hg (by decide) haround (by decide)
  refine ⟨hg, by decide, haround, by decide, (hwalks 2).mp hreached, fun walk hwalk => ?_,
    nodes, hfollows, (hmem 2).mpr hreached, fun hfour => hmissed ((hmem 4).mp hfour)⟩
  exact hmissed ((hwalks 4).mpr ⟨walk, hwalk⟩)

end Search

end GraphInterval
