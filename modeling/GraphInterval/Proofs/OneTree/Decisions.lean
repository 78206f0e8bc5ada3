import GraphInterval.Proofs.GraphVar.Gains
import GraphInterval.Proofs.OneTree.Sized

/-!
# Deciding edges

The analysis collects edges to exclude and edges to enforce, and carries the
decisions out one after the other.  An optional edge can be excluded and a
possible one enforced, whatever else was decided before, and a decision
changes no other edge.  The decisions that change something are counted, and
each of them is one event about an edge in the log.
-/

namespace GraphInterval

namespace GraphVar

variable {g : GraphVar} {a b : ℕ}

theorem sameEdge_iff {x y : ℕ} : Shape.SameEdge false a b x y ↔ s(a, b) = s(x, y) := by
  rw [Shape.SameEdge, Sym2.eq_iff]
  simp only [true_and]
  constructor
  · rintro (⟨rfl, rfl⟩ | ⟨rfl, rfl⟩)
    · exact .inl ⟨rfl, rfl⟩
    · exact .inr ⟨rfl, rfl⟩
  · rintro (⟨rfl, rfl⟩ | ⟨rfl, rfl⟩)
    · exact .inl ⟨rfl, rfl⟩
    · exact .inr ⟨rfl, rfl⟩

/-- Without directions, the order of the endpoints does not matter. -/
theorem Valid.isPotential_congr (hg : g.Valid) (hundirected : g.directed = false) {x y : ℕ}
    (heq : s(a, b) = s(x, y)) : g.isPotential x y = g.isPotential a b :=
  hg.isPotential_sameEdge (hundirected ▸ sameEdge_iff.mpr heq)

end GraphVar

namespace Kruskal

open GraphVar

variable {g g₁ g₂ : GraphVar} {a b count count' : ℕ} {edges edges' : List Edge}

/-! ### Excluding edges -/

/-- Some edges are not possible any more, and nothing else changed. -/
structure Excludes (g : GraphVar) (edges : List Edge) (count : ℕ) (g' : GraphVar) : Prop where
  narrows : g.Narrows g'
  lower_eq : g'.lower = g.lower
  isPotential_iff : ∀ x y, g'.isPotential x y = true ↔
    g.isPotential x y = true ∧ ∀ e ∈ edges, sym e ≠ s(x, y)
  adds : g.Adds count 0 g'

theorem Excludes.isMandatory_eq (h : Excludes g edges count g₁) (x y : ℕ) :
    g₁.isMandatory x y = g.isMandatory x y := by
  rw [GraphVar.isMandatory, h.lower_eq, GraphVar.isMandatory]

theorem Excludes.append (h : Excludes g edges count g₁) (h' : Excludes g₁ edges' count' g₂) :
    Excludes g (edges ++ edges') (count + count') g₂ := by
  have hpotential : ∀ x y, g₂.isPotential x y = true ↔
      g.isPotential x y = true ∧ ∀ e ∈ edges ++ edges', sym e ≠ s(x, y) := by
    intro x y
    rw [h'.isPotential_iff, h.isPotential_iff, List.forall_mem_append, and_assoc]
  exact ⟨h.narrows.trans h'.narrows, h'.lower_eq.trans h.lower_eq, hpotential,
    h.adds.trans h'.adds⟩

/-- An optional edge is excluded, and no other edge changes. -/
theorem removeOptional_wp (hg : g.Valid) (hundirected : g.directed = false)
    (hab : g.isMandatory a b = false) :
    (GraphVar.removeEdge a b).wp
      (fun changed g' => Excludes g [(a, b)] (if changed then 1 else 0) g')
      (fun _ _ => False) g := by
  rw [Attempt.wp, GraphVar.removeEdge_eq, hab]
  simp only [Bool.false_eq_true, if_false]
  cases hpotential : g.isPotential a b with
  | false =>
      have hother : ∀ x y, g.isPotential x y = true → s(a, b) ≠ s(x, y) := by
        intro x y hxy heq
        rw [hg.isPotential_congr hundirected heq, hpotential] at hxy
        exact Bool.false_ne_true hxy
      have hkept : ∀ x y, g.isPotential x y = true ↔
          g.isPotential x y = true ∧ ∀ e ∈ [(a, b)], sym e ≠ s(x, y) := by
        intro x y
        rw [List.forall_mem_singleton]
        exact (and_iff_left_of_imp (hother x y)).symm
      exact ⟨.refl, rfl, hkept, Adds.refl g⟩
  | true =>
      have hless : ∀ x y, (g.excludeEdge a b).isPotential x y = true ↔
          g.isPotential x y = true ∧ ∀ e ∈ [(a, b)], sym e ≠ s(x, y) := by
        intro x y
        rw [List.forall_mem_singleton, GraphVar.isPotential_excludeEdge hg, hundirected,
          sameEdge_iff]
        exact and_comm
      exact ⟨.single (.excludeEdge hpotential hab), rfl, hless, adds_excludeEdge g a b⟩

theorem removeAll_wp (hg : g.Valid) (hundirected : g.directed = false) (edges : List Edge)
    (hedges : ∀ e ∈ edges, g.isMandatory e.1 e.2 = false) :
    (removeAll edges).wp (fun count g' => Excludes g edges count g') (fun _ _ => False) g := by
  induction edges generalizing g with
  | nil => exact ⟨.refl, rfl, by simp, Adds.refl g⟩
  | cons e edges ih =>
      obtain ⟨he, hedges⟩ := List.forall_mem_cons.mp hedges
      rw [removeAll, Attempt.wp_bind]
      apply Attempt.wp_mono (removeOptional_wp hg hundirected he) _ fun _ _ h => h
      intro changed g₁ h₁
      have hrest : ∀ f ∈ edges, g₁.isMandatory f.1 f.2 = false := fun f hf =>
        (h₁.isMandatory_eq f.1 f.2).trans (hedges f hf)
      rw [Attempt.wp_bind]
      exact Attempt.wp_mono (ih (h₁.narrows.valid hg) ((h₁.narrows.directed hg).trans hundirected)
        hrest) (fun _ _ h₂ => h₁.append h₂) fun _ _ h => h

/-! ### Enforcing edges -/

/-- Some edges are mandatory now, and no other edge changed. -/
structure Enforces (g : GraphVar) (edges : List Edge) (count : ℕ) (g' : GraphVar) : Prop where
  narrows : g.Narrows g'
  upper_eq : g'.upper = g.upper
  isMandatory_iff : ∀ x y, g'.isMandatory x y = true ↔
    g.isMandatory x y = true ∨ ∃ e ∈ edges, sym e = s(x, y)
  adds : g.Adds 0 count g'

theorem Enforces.isPotential_eq (h : Enforces g edges count g₁) (x y : ℕ) :
    g₁.isPotential x y = g.isPotential x y := by
  rw [GraphVar.isPotential, h.upper_eq, GraphVar.isPotential]

theorem Enforces.append (h : Enforces g edges count g₁) (h' : Enforces g₁ edges' count' g₂) :
    Enforces g (edges ++ edges') (count + count') g₂ := by
  have hmandatory : ∀ x y, g₂.isMandatory x y = true ↔
      g.isMandatory x y = true ∨ ∃ e ∈ edges ++ edges', sym e = s(x, y) := by
    intro x y
    rw [h'.isMandatory_iff, h.isMandatory_iff, or_assoc]
    simp only [List.mem_append, or_and_right, exists_or]
  exact ⟨h.narrows.trans h'.narrows, h'.upper_eq.trans h.upper_eq, hmandatory,
    h.adds.trans h'.adds⟩

/-- A possible edge is enforced, and no other edge changes. -/
theorem enforcePossible_wp (hg : g.Valid) (hundirected : g.directed = false)
    (hab : g.isPotential a b = true) :
    (GraphVar.enforceEdge a b).wp
      (fun changed g' => Enforces g [(a, b)] (if changed then 1 else 0) g')
      (fun _ _ => False) g := by
  rw [Attempt.wp, GraphVar.enforceEdge_eq hg, hab]
  simp only [Bool.true_eq_false, if_false]
  have hsingle : ∀ x y, (∃ e ∈ [(a, b)], sym e = s(x, y)) ↔ Shape.SameEdge g.directed a b x y := by
    intro x y
    rw [hundirected, sameEdge_iff]
    simp [sym]
  cases hmandatory : g.isMandatory a b with
  | true =>
      have hkept : ∀ x y, g.isMandatory x y = true ↔
          g.isMandatory x y = true ∨ ∃ e ∈ [(a, b)], sym e = s(x, y) := by
        intro x y
        rw [hsingle]
        exact (or_iff_left_of_imp fun hsame =>
          (hg.isMandatory_sameEdge hsame).trans hmandatory).symm
      exact ⟨.refl, rfl, hkept, Adds.refl g⟩
  | false =>
      obtain ⟨hnarrows, hupper, hedge, -⟩ := GraphVar.includeWhole_spec hg hab hmandatory
      have hmore : ∀ x y, (g.includeWhole a b).isMandatory x y = true ↔
          g.isMandatory x y = true ∨ ∃ e ∈ [(a, b)], sym e = s(x, y) := by
        intro x y
        rw [hsingle, or_comm]
        exact hedge x y
      exact ⟨hnarrows, hupper, hmore, adds_includeWhole g a b⟩

theorem enforceAll_wp (hg : g.Valid) (hundirected : g.directed = false) (edges : List Edge)
    (hedges : ∀ e ∈ edges, g.isPotential e.1 e.2 = true) :
    (enforceAll edges).wp (fun count g' => Enforces g edges count g') (fun _ _ => False) g := by
  induction edges generalizing g with
  | nil => exact ⟨.refl, rfl, by simp, Adds.refl g⟩
  | cons e edges ih =>
      obtain ⟨he, hedges⟩ := List.forall_mem_cons.mp hedges
      rw [enforceAll, Attempt.wp_bind]
      apply Attempt.wp_mono (enforcePossible_wp hg hundirected he) _ fun _ _ h => h
      intro changed g₁ h₁
      have hrest : ∀ f ∈ edges, g₁.isPotential f.1 f.2 = true := fun f hf =>
        (h₁.isPotential_eq f.1 f.2).trans (hedges f hf)
      rw [Attempt.wp_bind]
      exact Attempt.wp_mono (ih (h₁.narrows.valid hg) ((h₁.narrows.directed hg).trans hundirected)
        hrest) (fun _ _ h₂ => h₁.append h₂) fun _ _ h => h

/-! ### What is decided -/

section Analysis

variable {α : Type} [Scalar α] {n : ℕ} {k : Kruskal α} {s : Analysis α} {A B : Edge → Prop}
variable {e : Edge}

/-- The edges to exclude are of one kind, and those to enforce are of another. -/
structure Analysis.Within (A B : Edge → Prop) (s : Analysis α) : Prop where
  toRemove : ∀ e ∈ s.toRemove, A e
  toEnforce : ∀ e ∈ s.toEnforce, B e

/-- Of an earlier analysis nothing is left. -/
theorem Analysis.within_clear (s : Analysis α) : s.clear.Within A B :=
  ⟨fun _ he => absurd he List.not_mem_nil, fun _ he => absurd he List.not_mem_nil⟩

theorem Analysis.Within.noteOutside (hs : s.Within A B) (he : A e) (bound budget marginal : α) :
    (s.noteOutside bound budget e marginal).Within A B := by
  have hremove : ∀ f ∈ (s.noteOutside bound budget e marginal).toRemove, A f := by
    rw [Analysis.noteOutside]
    split
    · exact List.forall_mem_cons.mpr ⟨he, hs.toRemove⟩
    · exact hs.toRemove
  exact ⟨hremove, hs.toEnforce⟩

theorem Analysis.Within.noteInside (hs : s.Within A B) (he : B e) (bound budget marginal : α) :
    (s.noteInside bound budget e marginal).Within A B := by
  have henforce : ∀ f ∈ (s.noteInside bound budget e marginal).toEnforce, B f := by
    rw [Analysis.noteInside]
    split
    · exact List.forall_mem_cons.mpr ⟨he, hs.toEnforce⟩
    · exact hs.toEnforce
  exact ⟨hs.toRemove, henforce⟩

/-- Only edges that were passed over and unchosen edges of the designated node are excluded, and
only edges to parents and chosen edges of the designated node are enforced. -/
theorem analyse_within (hg : g.Valid) (hnonTree : ∀ e ∈ k.nonTreeEdges, A e)
    (hparent : ∀ v, 2 ≤ v → v < k.tree.order → B (v, k.parent v))
    (houtside : ∀ v, g.isPotential OneTree.designated v = true →
      g.isMandatory OneTree.designated v = false → k.tree.contains OneTree.designated v = false →
        A (OneTree.designated, v))
    (hinside : ∀ v, g.isPotential OneTree.designated v = true →
      k.tree.contains OneTree.designated v = true → B (OneTree.designated, v)) (budget : α) :
    (analyse g k budget).Within A B := by
  apply List.foldlRecOn (motive := Analysis.Within A B)
  · apply List.foldlRecOn (motive := Analysis.Within A B)
    · refine List.foldlRecOn (motive := Analysis.Within A B) _ _ (Analysis.within_clear _) ?_
      exact fun s hs e he => hs.noteOutside (hnonTree e he) _ _ _
    · intro s hs v hv
      obtain ⟨hlow, hhigh⟩ := List.mem_range'_1.mp hv
      rw [analyseParentEdge]
      dsimp only
      split
      · exact hs
      · exact hs.noteInside (hparent v hlow (by omega)) _ _ _
  · intro s hs v hv
    have hpotential := (Graph.mem_successors hg.upper).mp hv
    rw [analyseDesignated]
    split_ifs with hmandatory hcontains
    · exact hs
    · exact hs.noteInside (hinside v hpotential hcontains) _ _ _
    · rw [Bool.not_eq_true] at hmandatory hcontains
      exact hs.noteOutside (houtside v hpotential hmandatory hcontains) _ _ _

omit [Scalar α] in
/-- The analysis stays inside of its tables and of the graph. -/
theorem analysable_eq (hn : 2 ≤ n) (hg : g.Valid) (horder : g.order = n)
    (hk : k.tree.order = n) : k.analysable g = true := by
  have hall : ((g.upper.successors OneTree.designated).toList.all fun v => decide (v < n) ||
      (k.tree.contains OneTree.designated v && g.isMandatory OneTree.designated v)) = true := by
    rw [List.all_eq_true]
    intro v hv
    have hlt := (hg.lt_order ((Graph.mem_successors hg.upper).mp hv)).2
    simp [horder ▸ hlt]
  rw [analysable, horder, hk, hall]
  simp only [Bool.and_true, Bool.and_eq_true, Bool.or_eq_true, decide_eq_true_iff]
  omega

/-- Inside of its tables and of the graph, pruning carries out what the analysis collects. -/
theorem prune_decides {budget : α} {Q : Pruned → Posted (Kruskal α) GraphVar → Prop}
    (hanalysable : k.analysable g = true)
    (h : (removeAll (analyse g (prepare g k) budget).toRemove.reverse).wp
      (fun removed g₁ => (enforceAll (analyse g (prepare g k) budget).toEnforce.reverse).wp
        (fun enforced g₂ => Q { removed, enforced }
          ⟨{ prepare g k with analysis := analyse g (prepare g k) budget }, g₂⟩)
        (fun _ _ => False) g₁)
      (fun _ _ => False) g) :
    (prune budget).wp Q (fun _ _ => False) ⟨k, g⟩ := by
  simp only [prune, Posted.update, Posted.onDomains, Attempt.wp_bind, Attempt.wp_get,
    Attempt.wp_ite, Attempt.wp_pure, Attempt.wp_throw, Attempt.wp_modify, Attempt.wp_within,
    hanalysable]
  exact ⟨fun hfalse => absurd hfalse (by simp), fun _ => h⟩

end Analysis

end Kruskal

end GraphInterval
