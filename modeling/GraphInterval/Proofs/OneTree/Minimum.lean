import GraphInterval.Proofs.OneTree.Sized

/-!
# The result of the thorough finder

The thorough finder ends with a cheapest one-tree whenever there is one, and
otherwise with a conflict.  Besides the one-tree it leaves the possible edges
that it passed over, each of them once and in the order of their costs.
-/

namespace GraphInterval

namespace Kruskal

open OneTree

variable {n : ℕ} {g : GraphVar}

/-! ### The edges that are passed over -/

section PassedOver

variable {α : Type} [Scalar α] {costs : Table α} {k : Kruskal α}

theorem takeMandatory_nonTreeEdges (e : Edge) :
    (takeMandatory costs e).wp (fun _ k' => k'.nonTreeEdges = k.nonTreeEdges)
      (fun _ _ => True) k := by
  rw [Attempt.wp, takeMandatory]
  dsimp only
  split
  next heq =>
    split at heq
    · cases heq
    · split at heq
      · cases heq
      · cases heq
        rfl
  next => trivial

/-- The edges passed over keep the order in which they were considered. -/
theorem reverse_nonTreeEdges_foldl (costs : Table α) (edges : List Edge) (k : Kruskal α) :
    (edges.foldl (takeUnlessCycle costs) k).nonTreeEdges.reverse.Sublist
      (k.nonTreeEdges.reverse ++ edges) := by
  induction edges generalizing k with
  | nil => simp
  | cons e edges ih =>
      rw [List.foldl_cons]
      refine (ih _).trans ?_
      rw [takeUnlessCycle]
      dsimp only
      split
      · exact List.Sublist.append_left (List.sublist_cons_self e edges) _
      · rw [List.reverse_cons, List.append_assoc, List.singleton_append]

theorem selectCheapest_sublist (candidates : List Edge) (hk : k.nonTreeEdges = []) :
    (selectCheapest costs candidates k).nonTreeEdges.Sublist
      (candidates.mergeSort (cheaper costs)) := by
  have hsublist := reverse_nonTreeEdges_foldl costs (candidates.mergeSort (cheaper costs)) k
  rwa [hk] at hsublist

/-- No edge is passed over twice. -/
theorem compute_nodup (k : Kruskal α) (g : GraphVar) :
    (compute costs g).wp (fun _ k' => k'.nonTreeEdges.Nodup) (fun _ _ => True) k := by
  have hlist : (optionalPairs k.tree.order g).Nodup := ((nodup_pairs _).filter _).filter _
  refine compute_phases (M := fun k' => k'.nonTreeEdges = []) rfl rfl
    (fun e _ k' hk' => Attempt.wp_mono (takeMandatory_nonTreeEdges e)
      (fun _ _ h => h.trans hk') fun _ _ h => h) ?_
  rintro k₁ k₂ hk₁ rfl - -
  have hnodup : (selectCheapest costs (optionalPairs k.tree.order g) k₁).nonTreeEdges.Nodup :=
    (selectCheapest_sublist _ hk₁).nodup ((List.mergeSort_perm _ _).nodup_iff.mpr hlist)
  exact Attempt.wp_mono (Attempt.wp_trivial _ _) (fun _ _ _ => hnodup) fun _ _ h => h

end PassedOver

/-! ### The computed one-tree -/

variable {cost : Sym2 ℕ → ℚ} {costs : Table Exact} {k : Kruskal Exact}

/-- The finder succeeds if and only if some one-tree of possible edges has all
mandatory ones.  Then it holds a cheapest one of these, its cost, and the
possible inner edges outside of it, each of them once and by cost. -/
theorem compute_exact (hn : 3 ≤ n) (hk : Reached n k) (hcosts : costs.Charges n cost)
    (hg : g.Reachable) (horder : g.order = n) (hundirected : g.directed = false)
    (hloopless : ∀ v, g.isPotential v v = false) :
    ((∃ k', compute costs g k = .ok () k') ↔
        ∃ H, Candidate (IsOneTree n) g.mandatoryEdges g.possibleEdges H) ∧
      (∀ failure k', compute costs g k = .error failure k' → failure = .conflict detector) ∧
      ∀ k', compute costs g k = .ok () k' →
        k'.tree.Represents n cost ∧
          IsCheapest (IsOneTree n) g.mandatoryEdges g.possibleEdges cost k'.tree.edgeSet ∧
          k'.bound = .number (totalCost cost k'.tree.edgeSet) ∧
          k'.nonTreeEdges.Nodup ∧
          (∀ a b, (a, b) ∈ k'.nonTreeEdges ↔
            a ≠ designated ∧ a < b ∧ g.isPotential a b = true ∧ s(a, b) ∉ k'.tree.edgeSet) ∧
          k'.nonTreeEdges.Pairwise fun e f => cost s(e.1, e.2) ≤ cost s(f.1, f.2) := by
  have hsimple : g.IsSimple n := ⟨hg.valid, horder, hundirected, hloopless⟩
  have hwp := compute_wp (by omega) hk.sized hcosts hsimple
  refine ⟨⟨?_, ?_⟩, fun failure k' hrun => (Attempt.of_wp_error hwp hrun).1, fun k' hrun => ?_⟩
  · rintro ⟨k', hrun⟩
    exact ⟨_, (Attempt.of_wp_ok hwp hrun).cheapest.candidate⟩
  · rintro ⟨H, hH⟩
    cases hrun : compute costs g k with
    | ok _ k' => exact ⟨k', rfl⟩
    | error failure k' => exact absurd hH ((Attempt.of_wp_error hwp hrun).2 H)
  · have hcomputed := Attempt.of_wp_ok hwp hrun
    have hnodup : k'.nonTreeEdges.Nodup :=
      Attempt.of_wp_ok (Q := fun _ k => k.nonTreeEdges.Nodup) (compute_nodup k g) hrun
    refine ⟨hcomputed.represents, hcomputed.cheapest, hcomputed.represents.cost_eq, hnodup,
      fun a b => ?_, hcomputed.sorted⟩
    rw [hcomputed.nonTree, mem_possiblePairs]
    constructor
    · rintro ⟨⟨ha, hab, -, hpotential⟩, hout⟩
      exact ⟨ha, hab, hpotential, hout⟩
    · rintro ⟨ha, hab, hpotential, hout⟩
      exact ⟨⟨ha, hab, (hsimple.lt_of_isPotential hpotential).2, hpotential⟩, hout⟩

/-- A path and two edges of the designated node are a one-tree. -/
theorem isOneTree_kite : IsOneTree 4 {s(0, 1), s(0, 2), s(1, 2), s(2, 3)} := by
  have hpath := ((IsSpanningTree.singleton 3).insert_leaf (x := 2) (y := 3)
    (by decide) (by decide)).insert_leaf (x := 1) (y := 2) (by decide) (by decide)
  have hnodes : ({1, 2, 3} : Finset ℕ) = innerNodes 4 := by decide
  have hedges : ({s(2, 1), s(3, 2)} : Finset (Sym2 ℕ)) = {s(1, 2), s(2, 3)} := by decide
  rw [hnodes, insert_empty_eq, hedges] at hpath
  exact hpath.isOneTree (a := 1) (b := 2) (by decide) (by decide) (by decide)

/-- In a complete graph exactly the pairs of different nodes are possible edges. -/
theorem isSimple_of_complete (hg : g.Reachable) (horder : g.order = n)
    (hundirected : g.directed = false)
    (hpotential : ∀ a < n, ∀ b < n, g.isPotential a b = !decide (a = b)) : g.IsSimple n := by
  refine ⟨hg.valid, horder, hundirected, hg.valid.loopless fun v hv => ?_⟩
  rw [hpotential v (horder ▸ hv) v (horder ▸ hv)]
  simp

theorem candidate_kite (hg : g.IsSimple 4)
    (hpotential : ∀ a < 4, ∀ b < 4, g.isPotential a b = !decide (a = b)) {M : Set (Sym2 ℕ)}
    (hM : ∀ e ∈ M, e ∈ ({s(0, 1), s(0, 2), s(1, 2), s(2, 3)} : Finset (Sym2 ℕ))) :
    Candidate (IsOneTree 4) M g.possibleEdges {s(0, 1), s(0, 2), s(1, 2), s(2, 3)} := by
  refine ⟨isOneTree_kite, hM, ?_⟩
  simp only [Finset.forall_mem_insert, Finset.mem_singleton, forall_eq, hg.mem_possibleEdges]
  exact ⟨hpotential 0 (by decide) 1 (by decide), hpotential 0 (by decide) 2 (by decide),
    hpotential 1 (by decide) 2 (by decide), hpotential 2 (by decide) 3 (by decide)⟩

/-- Four nodes with one mandatory edge, where the cost of an edge is the sum of its nodes. -/
theorem compute_exact_mandatory :
    let g := (GraphVar.Mutation.enforceEdge 2 3).run.after (GraphVar.unconstrained 4 false)
    let costs := Table.ofFn 4 fun a b => Exact.number (a + b)
    let cost : Sym2 ℕ → ℚ := Sym2.lift ⟨fun a b => a + b, fun _ _ => add_comm _ _⟩
    Reached 4 (make 4 : Kruskal Exact) ∧ costs.Charges 4 cost ∧ g.Reachable ∧ g.order = 4 ∧
      g.directed = false ∧ (∀ v, g.isPotential v v = false) ∧
      ∃ k' q, compute costs g (make 4) = .ok () k' ∧ s(2, 3) ∈ k'.tree.edgeSet ∧
        k'.bound = .number q ∧ q ≤ 11 := by
  intro g costs cost
  have hk : Reached 4 (make 4 : Kruskal Exact) := .make
  have hcosts : costs.Charges 4 cost :=
    ⟨Table.square_ofFn _ _, fun a ha b hb => Table.entry_ofFn _ ha hb⟩
  have hg : g.Reachable := .mutate _ (.unconstrained 4 false)
  have horder : g.order = 4 := rfl
  have hdirected : g.directed = false := rfl
  have hpotential : ∀ a < 4, ∀ b < 4, g.isPotential a b = !decide (a = b) := by decide +kernel
  have hmandatory : ∀ a < 4, ∀ b < 4, g.isMandatory a b = true → s(a, b) = s(2, 3) := by
    decide +kernel
  have henforced : g.isMandatory 2 3 = true := by decide +kernel
  clear_value g
  have hsimple := isSimple_of_complete hg horder hdirected hpotential
  have hloopless := hsimple.loopless
  have hcandidate : Candidate (IsOneTree 4) g.mandatoryEdges g.possibleEdges
      {s(0, 1), s(0, 2), s(1, 2), s(2, 3)} := by
    apply candidate_kite hsimple hpotential
    rintro e ⟨a, b, rfl, hab⟩
    obtain ⟨ha, hb⟩ := hsimple.lt_of_isPotential (hg.valid.isPotential hab)
    rw [hmandatory a ha b hb hab]
    decide
  obtain ⟨hok, -, hresult⟩ := compute_exact (by decide) hk hcosts hg horder hdirected hloopless
  obtain ⟨k', hrun⟩ := hok.mpr ⟨_, hcandidate⟩
  obtain ⟨-, hcheapest, hbound, -⟩ := hresult k' hrun
  refine ⟨hk, hcosts, hg, horder, hdirected, hloopless, k', _, hrun,
    hcheapest.candidate.mandatory _ (hsimple.mem_mandatoryEdges.mpr henforced), hbound, ?_⟩
  refine (hcheapest.le _ hcandidate).trans ?_
  decide +kernel

end Kruskal

end GraphInterval
