import GraphInterval.Proofs.OneTree.Minimum
import GraphInterval.Proofs.OneTree.Prim
import GraphInterval.Proofs.Scalar.Double

/-!
# The conflicts of the two finders

Whether a finder succeeds does not depend on its arithmetic, as long as the
costs compare with themselves.  The thorough finder has a conflict exactly if
no one-tree of possible edges has all mandatory ones.  The fast finder leaves a
mandatory edge out where it would close a cycle, and nothing looks at it again.
So it only has a conflict if no one-tree of possible edges has the mandatory
edges of the designated node, and it misses every other cycle of mandatory
edges.
-/

namespace GraphInterval

open OneTree

variable {α : Type} [Scalar α] {n : ℕ} {costs : Table α} {g : GraphVar}

/-- The thorough finder computes a one-tree with all mandatory edges unless there is none. -/
theorem Kruskal.compute_feasible {k : Kruskal α} (hn : 2 ≤ n) (hk : k.Sized n)
    (hcosts : costs.Square n) (hg : g.IsSimple n) :
    (Kruskal.compute costs g).wp
      (fun _ k' => Candidate (IsOneTree n) g.mandatoryEdges g.possibleEdges k'.tree.edgeSet)
      (fun failure _ => failure = .conflict detector ∧ (¬ MandatoryAcyclic g ∨
        ∀ H, ¬ Candidate (IsOneTree n) (outerMandatory g) g.possibleEdges H)) k := by
  refine Attempt.wp_mono (Kruskal.compute_composed (R := fun _ _ => True) hn hk hcosts hg
    (List.pairwise_of_forall fun _ _ => trivial)) ?_ fun _ _ h => h
  rintro _ k' ⟨k₁, hselected, htree, hattached, -⟩
  exact Kruskal.candidate_of_attached hg htree hselected.mandatory hselected.possible hattached

/-- The fast finder computes a one-tree with the mandatory edges of the designated node unless
there is none. -/
theorem Prim.compute_feasible [LawfulScalar α] {p : Prim α} (hn : 2 ≤ n) (hp : p.Sized n)
    (hcosts : costs.Square n) (hself : costs.Comparable) (hg : g.IsSimple n) :
    (Prim.compute costs g).wp
      (fun _ p' => Candidate (IsOneTree n) (outerMandatory g) g.possibleEdges p'.tree.edgeSet)
      (fun failure _ => failure = .conflict detector ∧
        ∀ H, ¬ Candidate (IsOneTree n) (outerMandatory g) g.possibleEdges H) p :=
  Attempt.wp_mono (Prim.compute_grown hn hp hcosts hself hg)
    (fun _ _ h => h.2.candidate hg h.1.spanning h.1.possible) fun _ _ h => h

/-- If the inner mandatory edges close no cycle, a one-tree with the mandatory edges of the
designated node may be exchanged for one with all of them. -/
theorem OneTree.MandatoryAcyclic.exists_candidate (hacyclic : MandatoryAcyclic g) (hn : 2 ≤ n)
    (hg : g.IsSimple n) {H : Finset (Sym2 ℕ)}
    (hH : Candidate (IsOneTree n) (outerMandatory g) g.possibleEdges H) :
    ∃ S, Candidate (IsOneTree n) g.mandatoryEdges g.possibleEdges S := by
  -- the thorough finder computes one, whatever the costs are
  have hwp := Kruskal.compute_feasible (α := Exact) hn (Kruskal.sized_make n)
    (Table.square_ofFn n fun _ _ => .number 0) hg
  obtain ⟨_, k', -, hk'⟩ := Attempt.exists_ok (Attempt.wp_mono hwp (fun _ _ h => h)
    fun _ _ h => h.2.resolve_left (not_not.mpr hacyclic) H hH)
  exact ⟨_, hk'⟩

namespace OneTree

/-! ### Comparing the finders -/

/-- With finite costs, the thorough finder has a conflict exactly if no one-tree of possible edges
has all mandatory ones, and the fast finder exactly if none has those of the designated node.  So
they differ exactly if the other mandatory edges close a cycle that the fast finder does not see.
Neither fails for another reason. -/
theorem conflict_iff {costs : Table Double} {k : Kruskal Double} {p : Prim Double} (hn : 3 ≤ n)
    (hk : Kruskal.Reached n k) (hp : Prim.Reached n p) (hcosts : costs.Square n)
    (hfinite : ∀ a < n, ∀ b < n, (costs.cost a b).isFinite = true) (hg : g.Reachable)
    (horder : g.order = n) (hundirected : g.directed = false)
    (hloopless : ∀ v, g.isPotential v v = false) :
    ((∃ k', Kruskal.compute costs g k = .error (.conflict detector) k') ↔
        ¬ ∃ H, Candidate (IsOneTree n) g.mandatoryEdges g.possibleEdges H) ∧
      ((∃ p', Prim.compute costs g p = .error (.conflict detector) p') ↔
        ¬ ∃ H, Candidate (IsOneTree n) (outerMandatory g) g.possibleEdges H) ∧
      ((∃ k', Kruskal.compute costs g k = .error (.conflict detector) k') ↔
        (∃ p', Prim.compute costs g p = .error (.conflict detector) p') ∨ ¬ MandatoryAcyclic g) ∧
      (∀ failure k', Kruskal.compute costs g k = .error failure k' →
        failure = .conflict detector) ∧
      ∀ failure p', Prim.compute costs g p = .error failure p' → failure = .conflict detector := by
  have hsimple : g.IsSimple n := ⟨hg.valid, horder, hundirected, hloopless⟩
  have hself : costs.Comparable := hcosts.comparable fun a ha b hb =>
    Double.le_self_of_isFinite (hfinite a ha b hb)
  have hkruskal := Kruskal.compute_feasible (by omega) hk.sized hcosts hsimple
  have hprim := Prim.compute_feasible (by omega) hp.sized hcosts hself hsimple
  have hprimIff : (∃ p', Prim.compute costs g p = .error (.conflict detector) p') ↔
      ¬ ∃ H, Candidate (IsOneTree n) (outerMandatory g) g.possibleEdges H :=
    Attempt.exists_error_iff (Attempt.wp_mono hprim (fun _ p' h => ⟨p'.tree.edgeSet, h⟩)
      fun _ _ h => ⟨h.1, not_exists.mpr h.2⟩)
  refine ⟨?_, hprimIff, ?_, fun failure k' hrun => (Attempt.of_wp_error hkruskal hrun).1,
    fun failure p' hrun => (Attempt.of_wp_error hprim hrun).1⟩
  · exact Attempt.exists_error_iff (Attempt.wp_mono hkruskal
      (fun _ k' h => ⟨k'.tree.edgeSet, h⟩)
      fun _ _ h => ⟨h.1, not_exists.mpr (Kruskal.none_of_infeasible h.2)⟩)
  · rw [hprimIff, or_comm, ← not_and_or]
    apply Attempt.exists_error_iff (Attempt.wp_mono hkruskal _ _)
    · exact fun _ k' h => ⟨mandatoryAcyclic_of_candidate h, k'.tree.edgeSet, h.mono fun e he => he.1⟩
    · exact fun _ _ h => ⟨h.1, not_and_or.mpr (h.2.imp_right not_exists.mpr)⟩

/-! ### A cycle of mandatory edges -/

/-- The complete graph over four nodes with some edges made mandatory. -/
def completeFour (edges : List Edge) : GraphVar :=
  edges.foldl (fun g e => (GraphVar.Mutation.enforceEdge e.1 e.2).run.after g)
    (GraphVar.unconstrained 4 false)

theorem reachable_completeFour (edges : List Edge) : (completeFour edges).Reachable :=
  List.foldlRecOn (motive := GraphVar.Reachable) edges _ (.unconstrained 4 false)
    fun _ hg _ _ => .mutate _ hg

/-- Every edge between four nodes costs one. -/
def unitCosts : Table Double :=
  Table.ofFn 4 fun a b => if a = b then ⟨0⟩ else ⟨0x3ff0000000000000⟩

theorem isFinite_unitCosts {a b : ℕ} (ha : a < 4) (hb : b < 4) :
    (unitCosts.cost a b).isFinite = true := by
  rw [unitCosts, Table.cost, Table.entry_ofFn _ ha hb]
  split <;> rfl

theorem unitCosts_comm {a b : ℕ} (ha : a < 4) (hb : b < 4) :
    unitCosts.cost a b = unitCosts.cost b a := by
  rw [unitCosts, Table.cost, Table.cost, Table.entry_ofFn _ ha hb, Table.entry_ofFn _ hb ha]
  simp only [eq_comm]

/-- Both finders succeed on a mandatory path. -/
theorem conflict_iff_path :
    let g := completeFour [(1, 2), (2, 3)]
    Kruskal.Reached 4 (Kruskal.make 4 : Kruskal Double) ∧
      Prim.Reached 4 (Prim.make 4 : Prim Double) ∧ unitCosts.Square 4 ∧
      (∀ a < 4, ∀ b < 4, (unitCosts.cost a b).isFinite = true) ∧ g.Reachable ∧ g.order = 4 ∧
      g.directed = false ∧ (∀ v, g.isPotential v v = false) ∧
      (∃ k', Kruskal.compute unitCosts g (Kruskal.make 4) = .ok () k') ∧
      ∃ p', Prim.compute unitCosts g (Prim.make 4) = .ok () p' := by
  intro g
  have hk : Kruskal.Reached 4 (Kruskal.make 4 : Kruskal Double) := .make
  have hp : Prim.Reached 4 (Prim.make 4 : Prim Double) := .make
  have hcosts : unitCosts.Square 4 := Table.square_ofFn _ _
  have hfinite : ∀ a < 4, ∀ b < 4, (unitCosts.cost a b).isFinite = true := fun a ha b hb =>
    isFinite_unitCosts ha hb
  have hg : g.Reachable := reachable_completeFour _
  have horder : g.order = 4 := rfl
  have hdirected : g.directed = false := rfl
  have hpotential : ∀ a < 4, ∀ b < 4, g.isPotential a b = !decide (a = b) := by decide +kernel
  have hmandatory : ∀ a < 4, ∀ b < 4, g.isMandatory a b = true →
      s(a, b) ∈ ({s(0, 1), s(0, 2), s(1, 2), s(2, 3)} : Finset (Sym2 ℕ)) := by decide +kernel
  clear_value g
  have hsimple := Kruskal.isSimple_of_complete hg horder hdirected hpotential
  have hcandidate : Candidate (IsOneTree 4) g.mandatoryEdges g.possibleEdges
      {s(0, 1), s(0, 2), s(1, 2), s(2, 3)} := by
    apply Kruskal.candidate_kite hsimple hpotential
    rintro e ⟨a, b, rfl, hab⟩
    obtain ⟨ha, hb⟩ := hsimple.lt_of_isPotential (hg.valid.isPotential hab)
    exact hmandatory a ha b hb hab
  obtain ⟨hthorough, hfast, -, hthorough', hfast'⟩ :=
    conflict_iff (by decide) hk hp hcosts hfinite hg horder hdirected hsimple.loopless
  refine ⟨hk, hp, hcosts, hfinite, hg, horder, hdirected, hsimple.loopless, ?_, ?_⟩
  · cases hrun : Kruskal.compute unitCosts g (Kruskal.make 4) with
    | ok _ k' => exact ⟨k', rfl⟩
    | error failure k' =>
        obtain rfl := hthorough' failure k' hrun
        exact absurd ⟨_, hcandidate⟩ (hthorough.mp ⟨k', hrun⟩)
  · cases hrun : Prim.compute unitCosts g (Prim.make 4) with
    | ok _ p' => exact ⟨p', rfl⟩
    | error failure p' =>
        obtain rfl := hfast' failure p' hrun
        exact absurd ⟨_, hcandidate.mono fun e he => he.1⟩ (hfast.mp ⟨p', hrun⟩)

/-- A mandatory triangle away from the designated node leaves no one-tree.  The thorough finder
has a conflict there, and the fast one succeeds. -/
theorem mandatory_triangle_differs :
    let g := completeFour [(1, 2), (2, 3), (1, 3)]
    unitCosts.Square 4 ∧ (∀ a < 4, ∀ b < 4, (unitCosts.cost a b).isFinite = true ∧
        unitCosts.cost a b = unitCosts.cost b a) ∧
      g.Reachable ∧ g.order = 4 ∧ g.directed = false ∧ (∀ v, g.isPotential v v = false) ∧
      (¬ ∃ H, Candidate (IsOneTree 4) g.mandatoryEdges g.possibleEdges H) ∧
      (∃ k', Kruskal.compute unitCosts g (Kruskal.make 4) = .error (.conflict detector) k') ∧
      ∃ p', Prim.compute unitCosts g (Prim.make 4) = .ok () p' := by
  intro g
  have hcosts : unitCosts.Square 4 := Table.square_ofFn _ _
  have hg : g.Reachable := reachable_completeFour _
  have horder : g.order = 4 := rfl
  have hdirected : g.directed = false := rfl
  have hpotential : ∀ a < 4, ∀ b < 4, g.isPotential a b = !decide (a = b) := by decide +kernel
  have houter : ∀ v < 4, g.isMandatory designated v = false := by decide +kernel
  have hcycle : g.isMandatory 1 2 = true ∧ g.isMandatory 2 3 = true ∧
      g.isMandatory 1 3 = true := by decide +kernel
  clear_value g
  have hsimple := Kruskal.isSimple_of_complete hg horder hdirected hpotential
  have hnone : ¬ ∃ H, Candidate (IsOneTree 4) g.mandatoryEdges g.possibleEdges H := by
    rintro ⟨H, hH⟩
    have hforest : IsForest {s(1, 2), s(2, 3), s(1, 3)} := by
      apply mandatoryAcyclic_of_candidate hH
      simp only [Finset.forall_mem_insert, Finset.mem_singleton, forall_eq, innerMandatory,
        Set.mem_ofPred_eq, hsimple.mem_mandatoryEdges]
      exact ⟨⟨hcycle.1, by decide⟩, ⟨hcycle.2.1, by decide⟩, hcycle.2.2, by decide⟩
    apply hforest 1 3 (by decide)
    exact (Joined.edge (by decide : s(1, 2) ∈ _)).trans (Joined.edge (by decide : s(2, 3) ∈ _))
  have hcandidate : Candidate (IsOneTree 4) (outerMandatory g) g.possibleEdges
      {s(0, 1), s(0, 2), s(1, 2), s(2, 3)} := by
    apply Kruskal.candidate_kite hsimple hpotential
    rintro e ⟨he, hd⟩
    obtain ⟨v, rfl⟩ := exists_eq_of_mem hd
    have hv := hsimple.mem_mandatoryEdges.mp he
    have hlt := (hsimple.lt_of_isPotential (hg.valid.isPotential hv)).2
    exact absurd ((houter v hlt).symm.trans hv) (by simp)
  refine ⟨hcosts, fun a ha b hb => ⟨isFinite_unitCosts ha hb, unitCosts_comm ha hb⟩, hg, horder,
    hdirected, hsimple.loopless, hnone, ?_, ?_⟩
  · have hwp := Kruskal.compute_feasible (by decide) (Kruskal.sized_make 4) hcosts hsimple
    cases hrun : Kruskal.compute unitCosts g (Kruskal.make 4) with
    | ok _ k' =>
        have hH := Attempt.of_wp_ok hwp hrun
        exact absurd ⟨_, hH⟩ hnone
    | error failure k' => exact ⟨k', by rw [(Attempt.of_wp_error hwp hrun).1]⟩
  · have hself : unitCosts.Comparable := hcosts.comparable fun a ha b hb =>
      Double.le_self_of_isFinite (isFinite_unitCosts ha hb)
    have hwp := Prim.compute_feasible (by decide) (Prim.sized_make 4) hcosts hself hsimple
    cases hrun : Prim.compute unitCosts g (Prim.make 4) with
    | ok _ p' => exact ⟨p', rfl⟩
    | error failure p' => exact absurd hcandidate ((Attempt.of_wp_error hwp hrun).2 _)

end OneTree

end GraphInterval
