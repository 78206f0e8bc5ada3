import GraphInterval.Proofs.GraphVar.Reachable
import Mathlib.Data.Set.Defs

/-!
# Transitive graphs between two bounds

A triple of distinct nodes is settled if no rule of the constraint applies to
it: two mandatory edges have their composition mandatory, and a mandatory and
a possible edge that compose have their composition possible.  If every triple
is settled, the lower bound is transitive, and every possible edge lies in a
transitive graph of the domain: adding one edge adds the edges from its
sources to its targets and nothing else.
-/

namespace GraphInterval

namespace Shape

/-- Compositions of edges between three distinct nodes are edges. -/
def IsTransitive (H : Shape) : Prop :=
  ∀ a b c, a ≠ b → b ≠ c → a ≠ c → H.edge a b → H.edge b c → H.edge a c

/-- The nodes and edges that all graphs of a set share. -/
def inter (S : Set Shape) : Shape :=
  { node := fun v => ∀ H ∈ S, H.node v, edge := fun a b => ∀ H ∈ S, H.edge a b }

/-- The nodes and edges of the graphs of a set. -/
def union (S : Set Shape) : Shape :=
  { node := fun v => ∃ H ∈ S, H.node v, edge := fun a b => ∃ H ∈ S, H.edge a b }

end Shape

namespace GraphVar

/-- The transitive graphs of the domain. -/
def transitiveGraphs (g : GraphVar) : Set Shape :=
  { H | g.Admits H ∧ H.IsTransitive }

/-- No rule applies to a triple. -/
structure Settled (g : GraphVar) (a b c : Nat) : Prop where
  enforce : g.isMandatory a b = true → g.isMandatory b c = true → g.isMandatory a c = true
  second : g.isMandatory a b = true → g.isPotential b c = true → g.isPotential a c = true
  first : g.isMandatory b c = true → g.isPotential a b = true → g.isPotential a c = true

/-- No rule applies to any triple of distinct nodes. -/
def Closed (g : GraphVar) : Prop :=
  ∀ a b c, a ≠ b → b ≠ c → a ≠ c → g.Settled a b c

variable {g : GraphVar}

theorem Valid.isMandatory_symm (hg : g.Valid) (hd : g.directed = false) {a b : Nat} :
    g.isMandatory a b = true → g.isMandatory b a = true :=
  hg.lower.symm (hg.directed_eq.trans hd)

theorem Valid.isPotential_symm (hg : g.Valid) (hd : g.directed = false) {a b : Nat} :
    g.isPotential a b = true → g.isPotential b a = true :=
  hg.upper.symm hd

/-- Without directions, a triple and its reversal are settled together. -/
theorem Settled.symm (hg : g.Valid) (hd : g.directed = false) {a b c : Nat}
    (h : g.Settled a b c) : g.Settled c b a where
  enforce hcb hba := hg.isMandatory_symm hd
    (h.enforce (hg.isMandatory_symm hd hba) (hg.isMandatory_symm hd hcb))
  second hcb hba := hg.isPotential_symm hd
    (h.first (hg.isMandatory_symm hd hcb) (hg.isPotential_symm hd hba))
  first hba hcb := hg.isPotential_symm hd
    (h.second (hg.isMandatory_symm hd hba) (hg.isPotential_symm hd hcb))

/-- No rule applies when the third edge is mandatory. -/
theorem Settled.of_isMandatory (hg : g.Valid) {a b c : Nat} (hac : g.isMandatory a c = true) :
    g.Settled a b c where
  enforce _ _ := hac
  second _ _ := hg.isPotential hac
  first _ _ := hg.isPotential hac

/-- No rule applies when no premise is mandatory. -/
theorem Settled.of_not_isMandatory {a b c : Nat} (hab : ¬ g.isMandatory a b = true)
    (hbc : ¬ g.isMandatory b c = true) : g.Settled a b c where
  enforce hM _ := absurd hM hab
  second hM _ := absurd hM hab
  first hM _ := absurd hM hbc

/-- No rule applies when the first edge is impossible. -/
theorem Settled.of_not_first (hg : g.Valid) {a b c : Nat} (hab : ¬ g.isPotential a b = true) :
    g.Settled a b c where
  enforce hM _ := absurd (hg.isPotential hM) hab
  second hM _ := absurd (hg.isPotential hM) hab
  first _ hP := absurd hP hab

/-- No rule applies when the second edge is impossible. -/
theorem Settled.of_not_second (hg : g.Valid) {a b c : Nat} (hbc : ¬ g.isPotential b c = true) :
    g.Settled a b c where
  enforce _ hM := absurd (hg.isPotential hM) hbc
  second _ hP := absurd hP hbc
  first hM _ := absurd (hg.isPotential hM) hbc

/-! ### The lower bound of a closed variable -/

theorem Closed.isTransitive_lower (h : g.Closed) : g.lower.shape.IsTransitive :=
  fun a b c hab hbc hac hM hM' => (h a b c hab hbc hac).enforce hM hM'

theorem Closed.lower_mem (hg : g.Valid) (h : g.Closed) :
    g.lower.shape ∈ g.transitiveGraphs :=
  ⟨hg.admits_lower, h.isTransitive_lower⟩

/-! ### Adding one edge to a closed variable -/

/-- The node `x` is `u` or has a mandatory edge to it. -/
def ReachesFrom (g : GraphVar) (x u : Nat) : Prop := x = u ∨ g.isMandatory x u = true

/-- The pairs that become edges with an edge from `u` to `v`. -/
def Composes (g : GraphVar) (u v x y : Nat) : Prop :=
  x ≠ y ∧ g.ReachesFrom x u ∧ g.ReachesFrom v y

/-- The mandatory edges, the edge from `u` to `v`, and what follows from it. -/
def withEdge (g : GraphVar) (u v : Nat) : Shape :=
  { node := fun x => g.isPotentialNode x = true
    edge := fun x y => g.isMandatory x y = true ∨ Shape.SameEdge g.directed u v x y ∨
      (u ≠ v ∧ (g.Composes u v x y ∨ (g.directed = false ∧ g.Composes v u x y))) }

theorem ReachesFrom.trans (h : g.Closed) {x y z : Nat} (hxz : x ≠ z)
    (hxy : g.ReachesFrom x y) (hyz : g.ReachesFrom y z) : g.ReachesFrom x z := by
  obtain rfl | hxy := hxy
  · exact hyz
  obtain rfl | hyz := hyz
  · exact .inr hxy
  by_cases hxy' : x = y
  · subst hxy'
    exact .inr hyz
  by_cases hyz' : y = z
  · subst hyz'
    exact .inr hxy
  · exact .inr ((h x y z hxy' hyz' hxz).enforce hxy hyz)

theorem ReachesFrom.isMandatory {x y : Nat} (h : g.ReachesFrom x y) (hxy : x ≠ y) :
    g.isMandatory x y = true :=
  h.resolve_left hxy

/-- Composed pairs are possible edges. -/
theorem Composes.isPotential (hg : g.Valid) (h : g.Closed) {u v x y : Nat} (huv : u ≠ v)
    (hpotential : g.isPotential u v = true) (hxy : g.Composes u v x y) :
    g.isPotential x y = true := by
  obtain ⟨hne, hxu, hvy⟩ := hxy
  by_cases hxv : x = v
  · -- the pair is a composition of mandatory edges only
    subst hxv
    exact hg.isPotential (hvy.isMandatory hne)
  have hleft : g.isPotential x v = true := by
    obtain rfl | hxu := hxu
    · exact hpotential
    by_cases hxu' : x = u
    · exact hxu' ▸ hpotential
    · exact (h x u v hxu' huv hxv).second hxu hpotential
  obtain rfl | hvy := hvy
  · exact hleft
  by_cases hvy' : v = y
  · exact hvy' ▸ hleft
  · exact (h x v y hxv hvy' hne).first hvy hleft

theorem Composes.edge {u v x y : Nat} (huv : u ≠ v) (h : g.Composes u v x y) :
    (g.withEdge u v).edge x y :=
  .inr (.inr ⟨huv, .inl h⟩)

/-- Composed pairs compose with each other and with mandatory edges. -/
theorem Composes.trans (h : g.Closed) {u v x y z : Nat} (hxz : x ≠ z)
    (hxy : g.isMandatory x y = true ∨ g.Composes u v x y)
    (hyz : g.isMandatory y z = true ∨ g.Composes u v y z) :
    g.isMandatory x z = true ∨ g.Composes u v x z := by
  obtain hxy | hxy := hxy <;> obtain hyz | hyz := hyz
  · exact .inl ((ReachesFrom.trans h hxz (.inr hxy) (.inr hyz)).isMandatory hxz)
  · by_cases hxu : x = u
    · exact .inr ⟨hxz, .inl hxu, hyz.2.2⟩
    · exact .inr ⟨hxz, ReachesFrom.trans h hxu (.inr hxy) hyz.2.1, hyz.2.2⟩
  · by_cases hvz : v = z
    · exact .inr ⟨hxz, hxy.2.1, .inl hvz⟩
    · exact .inr ⟨hxz, hxy.2.1, ReachesFrom.trans h hvz hxy.2.2 (.inr hyz)⟩
  · exact .inr ⟨hxz, hxy.2.1, hyz.2.2⟩

/-- A composed pair and one composed the other way make a mandatory edge. -/
theorem Composes.trans_reversed (h : g.Closed) {u v x y z : Nat} (hxz : x ≠ z)
    (hxy : g.Composes u v x y) (hyz : g.Composes v u y z) :
    g.isMandatory x z = true := by
  have huz : g.ReachesFrom u z := hyz.2.2
  exact (ReachesFrom.trans h hxz hxy.2.1 huz).isMandatory hxz

theorem sameEdge_composes {u v x y : Nat} (huv : u ≠ v)
    (h : Shape.SameEdge g.directed u v x y) :
    g.Composes u v x y ∨ (g.directed = false ∧ g.Composes v u x y) := by
  obtain ⟨rfl, rfl⟩ | ⟨hd, rfl, rfl⟩ := h
  · exact .inl ⟨huv, .inl rfl, .inl rfl⟩
  · exact .inr ⟨hd, huv.symm, .inl rfl, .inl rfl⟩

theorem isTransitive_withEdge (h : g.Closed) (u v : Nat) :
    (g.withEdge u v).IsTransitive := by
  intro x y z hxy hyz hxz hleft hright
  by_cases huv : u = v
  · -- a loop belongs to no triple of distinct nodes
    subst huv
    have hmandatory : ∀ {p q}, p ≠ q → (g.withEdge u u).edge p q →
        g.isMandatory p q = true := by
      intro p q hpq hedge
      obtain hM | (⟨rfl, rfl⟩ | ⟨-, rfl, rfl⟩) | ⟨hne, -⟩ := hedge
      · exact hM
      · exact absurd rfl hpq
      · exact absurd rfl hpq
      · exact absurd rfl hne
    exact .inl ((h x y z hxy hyz hxz).enforce (hmandatory hxy hleft) (hmandatory hyz hright))
  have hsplit : ∀ {p q}, (g.withEdge u v).edge p q →
      (g.isMandatory p q = true ∨ g.Composes u v p q) ∨
        (g.directed = false ∧ g.Composes v u p q) := by
    intro p q hedge
    obtain hM | hsame | ⟨-, hcomposes⟩ := hedge
    · exact .inl (.inl hM)
    · obtain hc | hc := sameEdge_composes huv hsame
      · exact .inl (.inr hc)
      · exact .inr hc
    · obtain hc | hc := hcomposes
      · exact .inl (.inr hc)
      · exact .inr hc
  have hforward : g.isMandatory x z = true ∨ g.Composes u v x z → (g.withEdge u v).edge x z := by
    rintro (hM | hc)
    · exact .inl hM
    · exact .inr (.inr ⟨huv, .inl hc⟩)
  have hbackward : g.directed = false →
      g.isMandatory x z = true ∨ g.Composes v u x z → (g.withEdge u v).edge x z := by
    rintro hd (hM | hc)
    · exact .inl hM
    · exact .inr (.inr ⟨huv, .inr ⟨hd, hc⟩⟩)
  obtain hxy' | ⟨hd, hxy'⟩ := hsplit hleft <;> obtain hyz' | ⟨hd', hyz'⟩ := hsplit hright
  · exact hforward (Composes.trans h hxz hxy' hyz')
  · obtain hM | hc := hxy'
    · exact hbackward hd' (Composes.trans h hxz (.inl hM) (.inr hyz'))
    · exact .inl (Composes.trans_reversed h hxz hc hyz')
  · obtain hM | hc := hyz'
    · exact hbackward hd (Composes.trans h hxz (.inr hxy') (.inl hM))
    · exact .inl (Composes.trans_reversed h hxz hxy' hc)
  · exact hbackward hd (Composes.trans h hxz (.inr hxy') (.inr hyz'))

theorem Composes.symm (hg : g.Valid) (hd : g.directed = false) {u v x y : Nat}
    (h : g.Composes u v x y) : g.Composes v u y x := by
  obtain ⟨hne, hxu, hvy⟩ := h
  refine ⟨hne.symm, ?_, ?_⟩
  · obtain rfl | hvy := hvy
    · exact .inl rfl
    · exact .inr (hg.isMandatory_symm hd hvy)
  · obtain rfl | hxu := hxu
    · exact .inl rfl
    · exact .inr (hg.isMandatory_symm hd hxu)

theorem isPotential_withEdge (hg : g.Valid) (h : g.Closed) {u v x y : Nat}
    (hpotential : g.isPotential u v = true) (hedge : (g.withEdge u v).edge x y) :
    g.isPotential x y = true := by
  obtain hM | hsame | ⟨huv, hc | ⟨hd, hc⟩⟩ := hedge
  · exact hg.isPotential hM
  · exact (hg.isPotential_sameEdge hsame).trans hpotential
  · exact hc.isPotential hg h huv hpotential
  · exact hc.isPotential hg h huv.symm (hg.isPotential_symm hd hpotential)

/-- Every possible edge lies in a transitive graph of the domain. -/
theorem Closed.withEdge_mem (hg : g.Valid) (h : g.Closed) {u v : Nat}
    (hpotential : g.isPotential u v = true) : g.withEdge u v ∈ g.transitiveGraphs := by
  have hsub : ∀ {x y}, (g.withEdge u v).edge x y → g.isPotential x y = true :=
    isPotential_withEdge hg h hpotential
  refine ⟨⟨⟨fun hxy => hg.upper.source (hsub hxy), fun hxy => hg.upper.target (hsub hxy),
    fun hd x y hxy => ?_⟩, ⟨hg.le.1, fun x y hxy => .inl hxy⟩, fun x hx => hx,
    fun x y hxy => hsub hxy⟩, isTransitive_withEdge h u v⟩
  obtain hM | hsame | ⟨huv, hc | ⟨-, hc⟩⟩ := hxy
  · exact .inl (hg.isMandatory_symm hd hM)
  · obtain ⟨rfl, rfl⟩ | ⟨-, rfl, rfl⟩ := hsame
    · exact .inr (.inl (.inr ⟨hd, rfl, rfl⟩))
    · exact .inr (.inl (.inl ⟨rfl, rfl⟩))
  · exact .inr (.inr ⟨huv, .inr ⟨hd, hc.symm hg hd⟩⟩)
  · exact .inr (.inr ⟨huv, .inl (hc.symm hg hd)⟩)

/-- The lower bound with all possible nodes is transitive as well. -/
theorem Closed.allNodes_mem (hg : g.Valid) (h : g.Closed) :
    { g.lower.shape with node := g.upper.shape.node } ∈ g.transitiveGraphs := by
  have hgraph := hg.admits_lower.isGraph
  exact ⟨⟨⟨fun hab => hg.le.1 _ (hgraph.source hab), fun hab => hg.le.1 _ (hgraph.target hab),
    hgraph.symm⟩, ⟨hg.le.1, fun _ _ hab => hab⟩, fun _ hv => hv, hg.le.2⟩,
    h.isTransitive_lower⟩

/-- The bounds of a closed variable are the intersection and the union of its
transitive graphs. -/
theorem Closed.bounds_eq (hg : g.Valid) (h : g.Closed) :
    g.lower.shape = Shape.inter g.transitiveGraphs ∧
      g.upper.shape = Shape.union g.transitiveGraphs := by
  constructor <;> rw [Shape.ext_iff']
  · refine ⟨fun v => ⟨fun hv H hH => hH.1.lower_le.1 v hv, fun hv => ?_⟩,
      fun a b => ⟨fun hab H hH => hH.1.lower_le.2 a b hab, fun hab => ?_⟩⟩
    · exact hv _ (h.lower_mem hg)
    · exact hab _ (h.lower_mem hg)
  · refine ⟨fun v => ⟨fun hv => ?_, fun ⟨H, hH, hv⟩ => hH.1.le_upper.1 v hv⟩,
      fun a b => ⟨fun hab => ?_, fun ⟨H, hH, hab⟩ => hH.1.le_upper.2 a b hab⟩⟩
    · exact ⟨_, h.allNodes_mem hg, hv⟩
    · exact ⟨_, h.withEdge_mem hg hab, .inr (.inl (.inl ⟨rfl, rfl⟩))⟩

end GraphVar

end GraphInterval
