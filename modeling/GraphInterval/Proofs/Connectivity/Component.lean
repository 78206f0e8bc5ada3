import GraphInterval.Proofs.Transitivity.Closure

/-!
# Connected graphs between two bounds

A graph is connected if any two of its nodes are joined by a path that may
follow every edge either way; a path can be asked to go around a node, and then
it is a walk none of whose nodes is the excluded one.  The nodes that a path
around an excluded node leads to form a connected graph.  If that graph has all
mandatory nodes, it has all mandatory edges too, and is a connected graph of the
domain without the excluded node.

A variable is linked if its possible nodes are joined to the mandatory ones and
every other node can be avoided between two mandatory ones.  Then its possible
nodes and edges, and its mandatory nodes, are those of the connected graphs of
its domain.
-/

namespace GraphInterval

namespace Shape

variable {G H : Shape} {around : Option Nat} {a b c r v : Nat}

/-- There is an edge between two nodes in one of its directions. -/
def Adjacent (H : Shape) (a b : Nat) : Prop := H.edge a b ∨ H.edge b a

/-- A path along edges in either direction leads from one node to another without entering the
excluded node. -/
def Joins (H : Shape) (around : Option Nat) : Nat → Nat → Prop :=
  Relation.ReflTransGen fun a b => H.Adjacent a b ∧ some b ≠ around

/-- Any two nodes are joined, so the graph without nodes is connected. -/
def IsConnected (H : Shape) : Prop := ∀ a b, H.node a → H.node b → H.Joins none a b

theorem Adjacent.symm (h : H.Adjacent a b) : H.Adjacent b a := Or.symm h

theorem Adjacent.mono (hle : G ≤ H) (h : G.Adjacent a b) : H.Adjacent a b :=
  h.imp (hle.2 a b) (hle.2 b a)

theorem Joins.trans (hab : H.Joins around a b) (hbc : H.Joins around b c) : H.Joins around a c :=
  Relation.ReflTransGen.trans hab hbc

theorem Joins.symm (h : H.Joins none a b) : H.Joins none b a := by
  induction h with
  | refl => exact .refl
  | tail _ hstep ih => exact .head ⟨hstep.1.symm, by simp⟩ ih

theorem Joins.mono (hle : G ≤ H) (h : G.Joins around a b) : H.Joins around a b :=
  Relation.ReflTransGen.mono (fun _ _ hstep => ⟨hstep.1.mono hle, hstep.2⟩) a b h

/-- A path that starts elsewhere does not enter the excluded node. -/
theorem Joins.ne (h : H.Joins (some v) a b) (hav : a ≠ v) : b ≠ v := by
  cases h with
  | refl => exact hav
  | tail _ hstep =>
      rintro rfl
      exact hstep.2 rfl

/-- Paths go around a node that has no edges. -/
theorem Joins.avoid (h : H.Joins none a b) (hv : ∀ x, ¬ H.Adjacent x v) :
    H.Joins (some v) a b := by
  refine Relation.ReflTransGen.mono (fun x y hstep => ⟨hstep.1, ?_⟩) a b h
  intro heq
  rw [Option.some.inj heq] at hstep
  exact hv x hstep.1

/-! ### Walks -/

/-- The nodes on a way from one node to another: each is adjacent to the one after it, and none is
the excluded node. -/
structure IsWalk (H : Shape) (around : Option Nat) (a b : Nat) (nodes : List Nat) : Prop where
  first : nodes.head? = some a
  last : nodes.getLast? = some b
  chain : nodes.IsChain H.Adjacent
  avoids : ∀ x ∈ nodes, some x ≠ around

theorem IsWalk.single (h : some a ≠ around) : H.IsWalk around a a [a] :=
  ⟨rfl, rfl, List.isChain_singleton a, by simpa using h⟩

/-- A walk goes on to a neighbour of its last node. -/
theorem IsWalk.concat {nodes : List Nat} (h : H.IsWalk around a b nodes) (hbc : H.Adjacent b c)
    (hc : some c ≠ around) : H.IsWalk around a c (nodes ++ [c]) := by
  refine ⟨?_, List.getLast?_concat, ?_, fun x hx => ?_⟩
  · rw [List.head?_append, h.first]
    rfl
  · refine List.isChain_append.mpr ⟨h.chain, List.isChain_singleton c, fun x hx y hy => ?_⟩
    obtain rfl : b = x := Option.some.inj (h.last.symm.trans hx)
    obtain rfl : c = y := Option.some.inj hy
    exact hbc
  · obtain hx | hx := List.mem_append.mp hx
    · exact h.avoids x hx
    · rwa [List.mem_singleton.mp hx]

theorem IsWalk.joins {nodes : List Nat} (h : H.IsWalk around a b nodes) : H.Joins around a b := by
  induction nodes generalizing a with
  | nil => exact absurd h.first (by simp)
  | cons x rest ih =>
      obtain rfl : x = a := Option.some.inj h.first
      cases rest with
      | nil =>
          obtain rfl : x = b := Option.some.inj h.last
          exact .refl
      | cons y rest =>
          obtain ⟨hxy, hchain⟩ := List.isChain_cons_cons.mp h.chain
          have hrest : H.IsWalk around y b (y :: rest) :=
            ⟨rfl, h.last, hchain, fun z hz => h.avoids z (List.mem_cons_of_mem x hz)⟩
          exact .head ⟨hxy, hrest.avoids y List.mem_cons_self⟩ (ih hrest)

/-- Nodes are joined around another one if and only if a walk between them avoids it, as long as
the start is not avoided itself. -/
theorem joins_iff_exists_isWalk (ha : around ≠ some a) :
    H.Joins around a b ↔ ∃ nodes, H.IsWalk around a b nodes := by
  constructor
  · intro h
    induction h with
    | refl => exact ⟨[a], .single ha.symm⟩
    | tail _ hstep ih =>
        obtain ⟨nodes, hnodes⟩ := ih
        exact ⟨_, hnodes.concat hstep.1 hstep.2⟩
  · rintro ⟨nodes, hnodes⟩
    exact hnodes.joins

/-! ### Components -/

/-- The nodes that paths around the excluded node lead to, with their edges. -/
def component (H : Shape) (around : Option Nat) (r : Nat) : Shape :=
  { node := fun x => H.node x ∧ H.Joins around r x
    edge := fun x y => H.edge x y ∧ H.Joins around r x ∧ H.Joins around r y }

theorem component_le (H : Shape) (around : Option Nat) (r : Nat) : H.component around r ≤ H :=
  ⟨fun _ hx => hx.1, fun _ _ hxy => hxy.1⟩

/-- A path stays in the component of its start. -/
theorem Joins.component (h : H.Joins around r a) : (H.component around r).Joins none r a := by
  induction h with
  | refl => exact .refl
  | @tail x y hpath hstep ih =>
      have hnext : H.Joins around r y := hpath.tail hstep
      refine ih.tail ⟨?_, by simp⟩
      exact hstep.1.imp (fun hxy => ⟨hxy, hpath, hnext⟩) fun hyx => ⟨hyx, hnext, hpath⟩

theorem isConnected_component (H : Shape) (around : Option Nat) (r : Nat) :
    (H.component around r).IsConnected :=
  fun _ _ ha hb => ha.2.component.symm.trans hb.2.component

end Shape

namespace GraphVar

variable {g : GraphVar} {around : Option Nat} {a b r v : Nat}

theorem Valid.lt_of_adjacent (hg : g.Valid) (hab : g.upper.shape.Adjacent a b) : b < g.order := by
  obtain hab | hba := hab
  · exact (hg.upper.lt_of_hasEdge hab).2
  · exact (hg.upper.lt_of_hasEdge hba).1

/-- Paths stay in the universe. -/
theorem Valid.lt_of_joins (hg : g.Valid) (hr : r < g.order)
    (h : g.upper.shape.Joins around r v) : v < g.order := by
  cases h with
  | refl => exact hr
  | tail _ hstep => exact hg.lt_of_adjacent hstep.1

/-- The connected graphs of the domain. -/
def connectedGraphs (g : GraphVar) : Set Shape :=
  { H | g.Admits H ∧ H.IsConnected }

/-- A component of the upper bound that has all mandatory nodes is a connected graph of the domain:
a mandatory edge lies between two of its nodes. -/
theorem Valid.component_mem (hg : g.Valid)
    (hmandatory : ∀ m, g.isMandatoryNode m = true → g.upper.shape.Joins around r m) :
    g.upper.shape.component around r ∈ g.connectedGraphs := by
  refine ⟨⟨⟨fun hab => ⟨hg.upper.source hab.1, hab.2.1⟩, fun hab => ⟨hg.upper.target hab.1, hab.2.2⟩,
    fun hd a b hab => ⟨hg.upper.symm hd hab.1, hab.2.2, hab.2.1⟩⟩,
    ⟨fun m hm => ⟨hg.le.1 m hm, hmandatory m hm⟩, fun a b hab => ⟨hg.le.2 a b hab, ?_, ?_⟩⟩,
    Shape.component_le _ _ _⟩, Shape.isConnected_component _ _ _⟩
  · exact hmandatory a (hg.lower.source hab)
  · exact hmandatory b (hg.lower.target hab)

/-- Possible nodes are joined to the mandatory ones, and another node can be avoided. -/
structure Linked (g : GraphVar) : Prop where
  joined : ∀ r v, g.isMandatoryNode r = true → g.isPotentialNode v = true →
    g.upper.shape.Joins none r v
  bypass : ∀ r m v, g.isMandatoryNode r = true → g.isMandatoryNode m = true →
    g.isPotentialNode v = true → g.isMandatoryNode v = false → g.upper.shape.Joins (some v) r m

/-- Every possible node has all mandatory ones in its component. -/
theorem Linked.component_mem (hg : g.Valid) (h : g.Linked) (hv : g.isPotentialNode v = true) :
    g.upper.shape.component none v ∈ g.connectedGraphs :=
  hg.component_mem fun m hm => (h.joined m v hm hv).symm

/-- A linked variable has a connected graph. -/
theorem Linked.nonempty (hg : g.Valid) (h : g.Linked) : ∃ H, H ∈ g.connectedGraphs := by
  by_cases hnone : ∃ r, g.isMandatoryNode r = true
  · obtain ⟨r, hr⟩ := hnone
    exact ⟨_, h.component_mem hg (hg.isPotentialNode hr)⟩
  · exact ⟨g.lower.shape, hg.admits_lower, fun a _ ha _ => absurd ⟨a, ha⟩ hnone⟩

/-- A node that is not mandatory is missing in some connected graph. -/
theorem Linked.exists_without (hg : g.Valid) (h : g.Linked) (hv : g.isMandatoryNode v = false) :
    ∃ H ∈ g.connectedGraphs, ¬ H.node v := by
  cases hpotential : g.isPotentialNode v with
  | false =>
      obtain ⟨H, hH⟩ := h.nonempty hg
      refine ⟨H, hH, fun hnode => ?_⟩
      exact absurd (hpotential.symm.trans (hH.1.le_upper.1 v hnode)) (by simp)
  | true =>
      by_cases hnone : ∃ r, g.isMandatoryNode r = true
      · obtain ⟨r, hr⟩ := hnone
        refine ⟨g.upper.shape.component (some v) r,
          hg.component_mem fun m hm => h.bypass r m v hr hm hpotential hv, fun hnode => ?_⟩
        refine hnode.2.ne ?_ rfl
        rintro rfl
        exact absurd (hv.symm.trans hr) (by simp)
      · refine ⟨g.lower.shape, ⟨hg.admits_lower, fun a _ ha _ => absurd ⟨a, ha⟩ hnone⟩, ?_⟩
        exact fun hnode => hnone ⟨v, hnode⟩

/-- The upper bound of a linked variable is the union of its connected graphs, and their common
nodes are the mandatory ones. -/
theorem Linked.bounds_eq (hg : g.Valid) (h : g.Linked) :
    g.lower.shape.node = (Shape.inter g.connectedGraphs).node ∧
      g.upper.shape = Shape.union g.connectedGraphs := by
  constructor
  · funext v
    refine propext ⟨fun hv H hH => hH.1.lower_le.1 v hv, fun hall => ?_⟩
    by_contra hv
    obtain ⟨H, hH, hnode⟩ := h.exists_without hg (Bool.eq_false_iff.mpr hv)
    exact hnode (hall H hH)
  · rw [Shape.ext_iff']
    refine ⟨fun v => ⟨fun hv => ?_, fun ⟨H, hH, hv⟩ => hH.1.le_upper.1 v hv⟩,
      fun a b => ⟨fun hab => ?_, fun ⟨H, hH, hab⟩ => hH.1.le_upper.2 a b hab⟩⟩
    · exact ⟨_, h.component_mem hg hv, hv, .refl⟩
    · have hstep : g.upper.shape.Joins none a b := .single ⟨.inl hab, by simp⟩
      exact ⟨_, h.component_mem hg (hg.upper.source hab), hab, .refl, hstep⟩

end GraphVar

end GraphInterval
