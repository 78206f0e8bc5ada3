import GraphInterval.Proofs.OneTree.Decisions
import GraphInterval.Proofs.OneTree.Marginals

/-!
# Pruning against a budget

The edges whose inclusion costs too much are excluded, and those whose
exclusion does are enforced.  No such edge is mandatory, or impossible, so the
decisions never fail, and nothing else changes.
-/

namespace GraphInterval

namespace Kruskal

open OneTree

variable {n : ℕ} {cost : Sym2 ℕ → ℚ} {g g' : GraphVar} {k k₀ k' : Kruskal Exact} {budget : Exact}
variable {a b : ℕ}

/-! ### The outcome of the analysis -/

theorem number_add_injective {q : ℚ} {x y : Exact} (h : Exact.number q + x = .number q + y) :
    x = y := by
  cases x <;> cases y <;> first | rfl | cases h | skip
  case number.number p r =>
    rw [Exact.number_add_number, Exact.number_add_number] at h
    injection h with h
    rw [add_left_cancel h]

/-- The tables hold the marginal costs, and the lists hold the edges that exceed the budget. -/
structure Analysed (n : ℕ) (cost : Sym2 ℕ → ℚ) (g : GraphVar) (k : Kruskal Exact) (budget : Exact)
    (s : Analysis Exact) : Prop where
  square : s.marginals.Square n
  cost : ∀ a b, g.isPotential a b = true → g.isMandatory a b = false →
    IsChangeCost n cost g k.tree.edgeSet s(a, b) (k.bound + s.marginals.entry a b .top)
  toRemove : ∀ a b, (∃ e ∈ s.toRemove, sym e = s(a, b)) ↔
    (g.isPotential a b = true ∧ g.isMandatory a b = false) ∧ s(a, b) ∉ k.tree.edgeSet ∧
      exceeds k.bound (s.marginals.entry a b .top) budget = true
  toEnforce : ∀ a b, (∃ e ∈ s.toEnforce, sym e = s(a, b)) ↔
    (g.isPotential a b = true ∧ g.isMandatory a b = false) ∧ s(a, b) ∈ k.tree.edgeSet ∧
      exceeds k.bound (s.marginals.entry a b .top) budget = true

/-- A note is about an edge that is possible and not mandatory. -/
theorem Note.Correct.optional {x : Note} {a b : ℕ} (hx : x.Correct n cost g k)
    (hg : g.IsSimple n) (hxab : sym x.edge = s(a, b)) :
    g.isPotential a b = true ∧ g.isMandatory a b = false := by
  have hpossible := hg.mem_possibleEdges.mpr hx.isPotential
  rw [← sym, hxab] at hpossible
  refine ⟨hg.mem_possibleEdges.mp hpossible, Bool.eq_false_iff.mpr fun hM => ?_⟩
  have hmem := hg.mem_mandatoryEdges.mpr hM
  rw [← hxab, sym] at hmem
  exact absurd (hx.isMandatory.symm.trans (hg.mem_mandatoryEdges.mp hmem)) (by simp)

/-- The notes about one edge agree on its marginal cost. -/
theorem Note.Correct.marginal_eq {x y : Note} (h : Prepared n cost g k₀ k)
    (hx : x.Correct n cost g k) (hy : y.Correct n cost g k) (hxy : sym x.edge = sym y.edge) :
    x.marginal = y.marginal := by
  have hunique := (hxy ▸ hx.cost).unique hy.cost
  rw [bound, h.computed.represents.cost_eq] at hunique
  exact number_add_injective hunique

theorem analyse_spec (hg : g.IsSimple n) (h : Prepared n cost g k₀ k) (budget : Exact) :
    Analysed n cost g k budget (analyse g k budget) := by
  obtain ⟨s, heq, hsquare, hentry, hremove, henforce⟩ := foldl_write k.bound budget (notes g k)
    k.analysis.clear (h.computed.sized.marginals.fill .top)
    fun x hx => (notes_correct hg h hx).lt
  rw [analyse_eq, heq]
  have hread : ∀ a b x, x ∈ notes g k → sym x.edge = s(a, b) →
      s.marginals.entry a b .top = x.marginal := by
    intro a b x hx hxab
    obtain ⟨y, hy, hyab, hread⟩ := hentry a b ⟨x, hx, hxab⟩
    rw [hread]
    exact (notes_correct hg h hy).marginal_eq h (notes_correct hg h hx) (hyab.trans hxab.symm)
  refine ⟨hsquare, fun a b hpotential hmandatory => ?_, fun a b => ?_, fun a b => ?_⟩
  · obtain ⟨x, hx, hxab⟩ := exists_note hg h hpotential hmandatory
    rw [hread a b x hx hxab, ← hxab]
    exact (notes_correct hg h hx).cost
  · constructor
    · rintro ⟨e, he, heab⟩
      obtain ⟨x, hx, rfl, hinside, hexceeds⟩ := ((hremove e).mp he).resolve_left List.not_mem_nil
      refine ⟨(notes_correct hg h hx).optional hg heab, fun hT => ?_, hread a b x hx heab ▸ hexceeds⟩
      have htrue := (notes_correct hg h hx).inside_iff.mpr (heab ▸ hT)
      exact absurd (hinside.symm.trans htrue) (by simp)
    · rintro ⟨⟨hpotential, hmandatory⟩, hT, hexceeds⟩
      obtain ⟨x, hx, hxab⟩ := exists_note hg h hpotential hmandatory
      refine ⟨x.edge, (hremove _).mpr (.inr ⟨x, hx, rfl, ?_, hread a b x hx hxab ▸ hexceeds⟩),
        hxab⟩
      rw [Bool.eq_false_iff]
      exact fun htrue => hT (hxab ▸ (notes_correct hg h hx).inside_iff.mp htrue)
  · constructor
    · rintro ⟨e, he, heab⟩
      obtain ⟨x, hx, rfl, hinside, hexceeds⟩ := ((henforce e).mp he).resolve_left List.not_mem_nil
      exact ⟨(notes_correct hg h hx).optional hg heab,
        heab ▸ (notes_correct hg h hx).inside_iff.mp hinside, hread a b x hx heab ▸ hexceeds⟩
    · rintro ⟨⟨hpotential, hmandatory⟩, hT, hexceeds⟩
      obtain ⟨x, hx, hxab⟩ := exists_note hg h hpotential hmandatory
      refine ⟨x.edge, (henforce _).mpr (.inr ⟨x, hx, rfl, ?_, hread a b x hx hxab ▸ hexceeds⟩),
        hxab⟩
      exact (notes_correct hg h hx).inside_iff.mpr (hxab ▸ hT)

/-! ### Pruning -/

/-- The graph lacks the edges whose inclusion exceeds the budget and has those whose exclusion
does. -/
structure Tightened (n : ℕ) (cost : Sym2 ℕ → ℚ) (g : GraphVar) (k : Kruskal Exact) (budget : Exact)
    (k' : Kruskal Exact) (g' : GraphVar) : Prop where
  sized : k'.Sized n
  tree_eq : k'.tree = k.tree
  narrows : g.Narrows g'
  cost : ∀ a b, g.isPotential a b = true → g.isMandatory a b = false →
    IsChangeCost n cost g k.tree.edgeSet s(a, b) (k.bound + k'.marginals.entry a b .top)
  isPotential_iff : ∀ a b, g'.isPotential a b = true ↔ g.isPotential a b = true ∧
    ¬ ((g.isPotential a b = true ∧ g.isMandatory a b = false) ∧ s(a, b) ∉ k.tree.edgeSet ∧
      exceeds k.bound (k'.marginals.entry a b .top) budget = true)
  isMandatory_iff : ∀ a b, g'.isMandatory a b = true ↔ g.isMandatory a b = true ∨
    ((g.isPotential a b = true ∧ g.isMandatory a b = false) ∧ s(a, b) ∈ k.tree.edgeSet ∧
      exceeds k.bound (k'.marginals.entry a b .top) budget = true)

theorem prune_wp (hn : 2 ≤ n) (hg : g.IsSimple n) (h : Computed n cost g k) (budget : Exact) :
    (prune budget).wp (fun _ s => Tightened n cost g k budget s.propagator s.domains)
      (fun _ _ => False) ⟨k, g⟩ := by
  have hprepared := prepare_spec hn hg h
  have hanalysed := analyse_spec hg hprepared budget
  have hbound : (prepare g k).bound = k.bound := by
    rw [bound, bound, hprepared.tree_eq]
  apply prune_decides (analysable_eq hn hg.valid hg.order_eq h.represents.sized.order_eq)
  generalize analyse g (prepare g k) budget = s at hanalysed
  generalize prepare g k = k₁ at hprepared hanalysed hbound
  obtain ⟨hsquare, hcost, hremove, henforce⟩ := hanalysed
  rw [hprepared.tree_eq, hbound] at hcost
  rw [hprepared.tree_eq, hbound] at hremove henforce
  have hsized := hprepared.computed.sized
  apply Attempt.wp_mono (removeAll_wp hg.valid hg.undirected s.toRemove.reverse ?_) _
    fun _ _ h => h
  · intro e he
    exact ((hremove e.1 e.2).mp ⟨e, List.mem_reverse.mp he, rfl⟩).1.2
  · intro removed g₁ h₁
    have hg₁ := hg.narrows h₁.narrows
    apply Attempt.wp_mono (enforceAll_wp hg₁.valid hg₁.undirected s.toEnforce.reverse ?_) _
      fun _ _ h => h
    · intro e he
      obtain ⟨⟨he', -⟩, heT, -⟩ := (henforce e.1 e.2).mp ⟨e, List.mem_reverse.mp he, rfl⟩
      refine (h₁.isPotential_iff e.1 e.2).mpr ⟨he', fun d hd heq => ?_⟩
      exact ((hremove e.1 e.2).mp ⟨d, List.mem_reverse.mp hd, heq⟩).2.1 heT
    · intro enforced g₂ h₂
      refine ⟨hsized.withAnalysis hsquare, hprepared.tree_eq, h₁.narrows.trans h₂.narrows, hcost,
        fun a b => ?_, fun a b => ?_⟩
      · rw [h₂.isPotential_eq, h₁.isPotential_iff, marginals, ← hremove]
        simp
      · rw [h₂.isMandatory_iff, h₁.isMandatory_eq, marginals, ← henforce]
        simp

/-! ### Changes that are too expensive -/

/-- The least cost after an edge is changed, as the finder answers it. -/
def changeCost (k : Kruskal Exact) (a b : ℕ) : Exact := k.bound + k.marginals.entry a b .top

/-- A change is impossible or costs more than a budget. -/
def IsTooExpensive (k : Kruskal Exact) (budget : Exact) (a b : ℕ) : Prop :=
  k.changeCost a b = .top ∨ budget < k.changeCost a b

theorem exceeds_iff {q : ℚ} {m : Exact} :
    exceeds (Exact.number q) m budget = true ↔
      Exact.number q + m = .top ∨ budget < Exact.number q + m := by
  have htop : m = .top ↔ Exact.number q + m = .top := by
    constructor
    · rintro rfl
      exact Exact.number_add_top
    · exact fun h => number_add_injective (h.trans Exact.number_add_top.symm)
  rw [exceeds, Bool.or_eq_true, decide_eq_true_iff, Exact.top_eq, Exact.beq_iff, htop]

/-! ### One-trees within the budget -/

/-- A one-tree between the bounds of the graph that costs no more than the budget. -/
structure IsAffordable (n : ℕ) (cost : Sym2 ℕ → ℚ) (g : GraphVar) (budget : Exact)
    (S : Finset (Sym2 ℕ)) : Prop where
  candidate : Candidate (IsOneTree n) g.mandatoryEdges g.possibleEdges S
  le : Exact.number (totalCost cost S) ≤ budget

/-- An edge is not decided exactly if a one-tree within the budget differs about it. -/
theorem exceeds_eq_false_iff {T : Finset (Sym2 ℕ)} {e : Sym2 ℕ} {q : ℚ} {m : Exact}
    (h : IsChangeCost n cost g T e (.number q + m)) :
    exceeds (Exact.number q) m budget = false ↔
      ∃ S, IsAffordable n cost g budget S ∧ (e ∈ S ↔ e ∉ T) := by
  rw [Bool.eq_false_iff, Ne, exceeds_iff, not_or, ← Exact.le_iff_not_lt]
  obtain ⟨htop, hnone⟩ | ⟨R, ⟨hR, hdiffer⟩, hnumber, hleast⟩ := h
  · constructor
    · rintro ⟨hne, -⟩
      exact absurd htop hne
    · rintro ⟨S, hS, hdiffer⟩
      exact absurd ⟨hS.candidate, hdiffer⟩ (hnone S)
  · rw [hnumber]
    constructor
    · rintro ⟨-, hle⟩
      exact ⟨R, ⟨hR, hle⟩, hdiffer⟩
    · rintro ⟨S, hS, hdiffer'⟩
      have hRS := hleast S ⟨hS.candidate, hdiffer'⟩
      exact ⟨by simp, Exact.le_trans (Exact.number_le_number.mpr hRS) hS.le⟩

theorem Tightened.exceeds_eq_false (h : Tightened n cost g k budget k' g') {q : ℚ}
    (hbound : k.bound = .number q) (hab : g.isPotential a b = true)
    (hM : g.isMandatory a b = false) :
    exceeds k.bound (k'.marginals.entry a b .top) budget = false ↔
      ∃ S, IsAffordable n cost g budget S ∧ (s(a, b) ∈ S ↔ s(a, b) ∉ k.tree.edgeSet) := by
  have hcost := h.cost a b hab hM
  rw [hbound] at hcost ⊢
  exact exceeds_eq_false_iff hcost

/-- Pruning keeps every one-tree within the budget. -/
theorem Tightened.affordable (h : Tightened n cost g k budget k' g') (hg : g.IsSimple n) {q : ℚ}
    (hbound : k.bound = .number q) {S : Finset (Sym2 ℕ)} (hS : IsAffordable n cost g budget S) :
    IsAffordable n cost g' budget S := by
  have hkept : ∀ a b, g.isPotential a b = true → g.isMandatory a b = false →
      (s(a, b) ∈ S ↔ s(a, b) ∉ k.tree.edgeSet) →
        exceeds k.bound (k'.marginals.entry a b .top) budget = false :=
    fun a b hab hM hdiffer => (h.exceeds_eq_false hbound hab hM).mpr ⟨S, hS, hdiffer⟩
  have hmandatory : ∀ e ∈ g'.mandatoryEdges, e ∈ S := by
    rintro e ⟨a, b, rfl, hab⟩
    obtain hM | ⟨⟨hpot, hM⟩, hT, hexceeds⟩ := (h.isMandatory_iff a b).mp hab
    · exact hS.candidate.mandatory _ (hg.mem_mandatoryEdges.mpr hM)
    · by_contra hin
      have hfalse := hkept a b hpot hM (iff_of_false hin (not_not.mpr hT))
      exact absurd (hfalse.symm.trans hexceeds) (by simp)
  have hpossible : ∀ e ∈ S, e ∈ g'.possibleEdges := by
    intro e he
    obtain ⟨a, b, rfl, hpot⟩ := hS.candidate.possible e he
    refine ⟨a, b, rfl, (h.isPotential_iff a b).mpr ⟨hpot, ?_⟩⟩
    rintro ⟨⟨-, hM⟩, hT, hexceeds⟩
    have hfalse := hkept a b hpot hM (iff_of_true he hT)
    exact absurd (hfalse.symm.trans hexceeds) (by simp)
  exact ⟨⟨hS.candidate.base, hmandatory, hpossible⟩, hS.le⟩

/-! ### Exactness -/

/-- The change cost of every optional edge is the least cost of a one-tree of possible edges that
has all mandatory edges and differs about this edge; exactly the edges whose change is too
expensive are decided, and no other edge changes. -/
theorem prune_exact {costs : Table Exact} {k₁ : Kruskal Exact} (hn : 3 ≤ n) (hk : Reached n k)
    (hcosts : costs.Charges n cost) (hg : g.Reachable) (horder : g.order = n)
    (hundirected : g.directed = false) (hloopless : ∀ v, g.isPotential v v = false)
    (hcompute : compute costs g k = .ok () k₁) (budget : Exact) :
    ∃ pruned k₂ g', prune budget ⟨k₁, g⟩ = .ok pruned ⟨k₂, g'⟩ ∧ k₂.tree = k₁.tree ∧
      (∀ a b, g.isPotential a b = true → g.isMandatory a b = false →
        IsLeastCost cost (fun S =>
          Candidate (IsOneTree n) g.mandatoryEdges g.possibleEdges S ∧
            (s(a, b) ∈ S ↔ k₁.tree.contains a b = false)) (k₂.changeCost a b)) ∧
      (∀ a b, g'.isPotential a b = true ↔ g.isPotential a b = true ∧
        ¬ (g.isMandatory a b = false ∧ k₁.tree.contains a b = false ∧
          k₂.IsTooExpensive budget a b)) ∧
      (∀ a b, g'.isMandatory a b = true ↔ g.isMandatory a b = true ∨
        (g.isPotential a b = true ∧ k₁.tree.contains a b = true ∧
          k₂.IsTooExpensive budget a b)) := by
  have hsimple : g.IsSimple n := ⟨hg.valid, horder, hundirected, hloopless⟩
  have hcomputed := Attempt.of_wp_ok (compute_wp (by omega) hk.sized hcosts hsimple) hcompute
  obtain ⟨pruned, ⟨k₂, g'⟩, hprune, htightened⟩ :=
    Attempt.exists_ok (prune_wp (by omega) hsimple hcomputed budget)
  have hbound : k₂.bound = k₁.bound := congrArg OneTree.cost htightened.tree_eq
  have hexceeds : ∀ a b, exceeds k₁.bound (k₂.marginals.entry a b .top) budget = true ↔
      k₂.IsTooExpensive budget a b := by
    intro a b
    have hcost : k₁.bound = .number (totalCost cost k₁.tree.edgeSet) := hcomputed.represents.cost_eq
    rw [IsTooExpensive, changeCost, hbound, hcost]
    exact exceeds_iff
  have hcontains : ∀ a b, g.isPotential a b = true →
      (k₁.tree.contains a b = true ↔ s(a, b) ∈ k₁.tree.edgeSet) := by
    intro a b hab
    obtain ⟨ha, hb⟩ := hsimple.lt_of_isPotential hab
    exact hcomputed.represents.contains_iff a ha b hb
  refine ⟨pruned, k₂, g', hprune, htightened.tree_eq, fun a b hab hM => ?_, fun a b => ?_,
    fun a b => ?_⟩
  · have hcost := htightened.cost a b hab hM
    rw [← hbound] at hcost
    apply hcost.congr
    intro S
    rw [← hcontains a b hab, Bool.not_eq_true]
  · rw [htightened.isPotential_iff]
    apply and_congr_right
    intro hab
    rw [← hcontains a b hab, hexceeds, Bool.not_eq_true]
    simp only [hab, true_and]
  · rw [htightened.isMandatory_iff]
    by_cases hab : g.isPotential a b = true
    · rw [← hcontains a b hab, hexceeds]
      by_cases hM : g.isMandatory a b = true
      · simp only [hM, true_or]
      · rw [Bool.not_eq_true] at hM
        simp only [hM, hab, true_and, and_true]
    · simp only [hab, false_and, Bool.false_eq_true]

/-- A triangle is a one-tree. -/
theorem isOneTree_triangle : IsOneTree 3 {s(0, 1), s(0, 2), s(1, 2)} := by
  have hpath := (IsSpanningTree.singleton 1).insert_leaf (x := 2) (y := 1) (by decide) (by decide)
  have hnodes : ({2, 1} : Finset ℕ) = innerNodes 3 := by decide
  rw [hnodes] at hpath
  exact hpath.isOneTree (a := 1) (b := 2) (by decide) (by decide) (by decide)

/-- Every one-tree of three nodes joins the two inner ones. -/
theorem mem_of_isOneTree_three {S : Finset (Sym2 ℕ)} (hS : IsOneTree 3 S) : s(1, 2) ∈ S := by
  have hjoined := hS.inner.joined 1 (by decide) 2 (by decide)
  obtain ⟨x, y, hxy, rfl, hy⟩ := hjoined.exists_crossing (A := fun x => x = 1) rfl (by decide)
  obtain ⟨hy0, hy3⟩ := mem_innerNodes.mp (hS.inner.inside 1 y hxy).2
  rw [designated] at hy0
  have htwo : y = 2 := by omega
  exact htwo ▸ (mem_innerEdges.mp hxy).1

/-- In a triangle the edge between the inner nodes is enforced, even without a limit to the
budget. -/
theorem prune_exact_triangle :
    let g := (GraphVar.Mutation.removeEdge 2 2).run.after
      ((GraphVar.Mutation.removeEdge 1 1).run.after
        ((GraphVar.Mutation.removeEdge 0 0).run.after (GraphVar.unconstrained 3 false)))
    let costs := Table.ofFn 3 fun _ _ => Exact.number 1
    Reached 3 (make 3 : Kruskal Exact) ∧ costs.Charges 3 (fun _ => 1) ∧ g.Reachable ∧
      g.order = 3 ∧ g.directed = false ∧ (∀ v, g.isPotential v v = false) ∧
      ∃ k₁ pruned k₂ g', compute costs g (make 3) = .ok () k₁ ∧
        prune .top ⟨k₁, g⟩ = .ok pruned ⟨k₂, g'⟩ ∧ g'.isMandatory 1 2 = true := by
  intro g costs
  have hk : Reached 3 (make 3 : Kruskal Exact) := .make
  have hcosts : costs.Charges 3 (fun _ => 1) :=
    ⟨Table.square_ofFn _ _, fun a ha b hb => Table.entry_ofFn _ ha hb⟩
  have hg : g.Reachable := .mutate _ (.mutate _ (.mutate _ (.unconstrained 3 false)))
  have horder : g.order = 3 := rfl
  have hdirected : g.directed = false := rfl
  have hpotential : ∀ a < 3, ∀ b < 3, g.isPotential a b = !decide (a = b) := by decide +kernel
  have hmandatory : ∀ a < 3, ∀ b < 3, g.isMandatory a b = false := by decide +kernel
  clear_value g
  have hloopless : ∀ v, g.isPotential v v = false := by
    intro v
    by_cases hv : v < 3
    · rw [hpotential v hv v hv]
      simp
    · rw [Bool.eq_false_iff]
      exact fun htrue => hv (horder ▸ (hg.valid.lt_order htrue).1)
  have hsimple : g.IsSimple 3 := ⟨hg.valid, horder, hdirected, hloopless⟩
  have hcandidate : Candidate (IsOneTree 3) g.mandatoryEdges g.possibleEdges
      {s(0, 1), s(0, 2), s(1, 2)} := by
    refine ⟨isOneTree_triangle, ?_, ?_⟩
    · rintro e ⟨a, b, rfl, hab⟩
      obtain ⟨ha, hb⟩ := hsimple.lt_of_isPotential (hg.valid.isPotential hab)
      exact absurd ((hmandatory a ha b hb).symm.trans hab) (by simp)
    · simp only [Finset.forall_mem_insert, Finset.mem_singleton, forall_eq,
        hsimple.mem_possibleEdges]
      exact ⟨hpotential 0 (by decide) 1 (by decide), hpotential 0 (by decide) 2 (by decide),
        hpotential 1 (by decide) 2 (by decide)⟩
  have hwp := compute_wp (by decide) hk.sized hcosts hsimple
  cases hcompute : compute costs g (make 3) with
  | error failure k₁ => exact absurd hcandidate ((Attempt.of_wp_error hwp hcompute).2 _)
  | ok value k₁ =>
      have hcomputed := Attempt.of_wp_ok hwp hcompute
      obtain ⟨pruned, k₂, g', hprune, -, hcost, -, hmandatory_iff⟩ := prune_exact (le_refl 3) hk
        hcosts hg horder hdirected hloopless hcompute .top
      refine ⟨hk, hcosts, hg, horder, hdirected, hloopless, k₁, pruned, k₂, g', rfl, hprune, ?_⟩
      have hpot := hpotential 1 (by decide) 2 (by decide)
      have hcontains : k₁.tree.contains 1 2 = true :=
        (hcomputed.represents.contains_iff 1 (by decide) 2 (by decide)).mpr
          (mem_of_isOneTree_three hcomputed.cheapest.candidate.base)
      refine (hmandatory_iff 1 2).mpr (.inr ⟨hpot, hcontains, .inl ?_⟩)
      obtain ⟨htop, -⟩ | ⟨S, ⟨hS, hiff⟩, -⟩ :=
        hcost 1 2 hpot (hmandatory 1 (by decide) 2 (by decide))
      · exact htop
      · have hfalse := hiff.mp (mem_of_isOneTree_three hS.base)
        exact absurd (hfalse.symm.trans hcontains) (by simp)

end Kruskal

end GraphInterval
