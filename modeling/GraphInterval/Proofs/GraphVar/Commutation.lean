import GraphInterval.Proofs.GraphVar.Refinement
import GraphInterval.Proofs.GraphVar.Restriction

/-!
# Mutations in any order

A list of mutations succeeds exactly if some graph of the domain is accepted by
all of them, and what it leaves are those graphs.  Neither depends on the order
of the list.  As the bounds of a variable are the least and the greatest graph
of its domain, they do not depend on the order either, although the log and the
order in which sets are enumerated may tell the two runs apart.
-/

namespace GraphInterval

namespace GraphVar

variable {g g' h : GraphVar} {ms ms' : List Mutation}

/-- Variables of one kind over one universe that admit the same graphs have equal bounds. -/
theorem Agree.of_admits_iff (hg : g.Valid) (hh : h.Valid) (horder : g.order = h.order)
    (hdirected : g.directed = h.directed) (hsame : ∀ H, g.Admits H ↔ h.Admits H) : Agree g h := by
  have hlower := (hsame _).mp hg.admits_lower
  have hlower' := (hsame _).mpr hh.admits_lower
  have hupper := (hsame _).mp hg.admits_upper
  have hupper' := (hsame _).mpr hh.admits_upper
  exact ⟨horder, hdirected, Shape.le_antisymm hlower'.lower_le hlower.lower_le,
    Shape.le_antisymm hupper.le_upper hupper'.le_upper⟩

namespace Mutation

/-- Performs mutations one after the other as long as they succeed; answers which of them changed
the domain. -/
def runAll : List Mutation → Attempt GraphVar (List Bool)
  | [] => pure []
  | m :: ms => do
      let changed ← m.run
      let flags ← runAll ms
      return changed :: flags

/-- Mutations in a row keep the graphs that all of them accept, and fail if there is none. -/
theorem runAll_wp (ms : List Mutation) (hg : g.Valid) :
    (runAll ms).wp
      (fun _ g' => Narrows g g' ∧ ∀ H, g'.Admits H ↔ g.Admits H ∧ ∀ m ∈ ms, m.Accepts H)
      (fun _ _ => ∀ H, g.Admits H → ¬ ∀ m ∈ ms, m.Accepts H) g := by
  induction ms generalizing g with
  | nil =>
      rw [runAll, Attempt.wp_pure]
      exact ⟨.refl, by simp⟩
  | cons m ms ih =>
      rw [runAll, Attempt.wp_bind]
      refine Attempt.wp_mono (Attempt.wp_and (m.wp_run hg) (m.wp_restricts hg)) ?_ ?_
      · rintro changed g₁ ⟨hnarrows, hrestricts⟩
        rw [Attempt.wp_bind]
        refine Attempt.wp_mono (ih (hnarrows.valid hg)) ?_ ?_
        · rintro flags g₂ ⟨hnarrows', hadmits⟩
          rw [Attempt.wp_pure]
          refine ⟨hnarrows.trans hnarrows', fun H => ?_⟩
          rw [hadmits, hrestricts.admits_iff, List.forall_mem_cons, and_assoc]
        · intro _ _ hnone H hH haccepts
          obtain ⟨hfirst, hrest⟩ := List.forall_mem_cons.mp haccepts
          exact hnone H ((hrestricts.admits_iff H).mpr ⟨hH, hfirst⟩) hrest
      · rintro _ _ ⟨-, -, -, hnone⟩ H hH haccepts
        exact hnone H hH (List.forall_mem_cons.mp haccepts).1

/-- If mutations succeed in one order they succeed in every order, and lead to equal bounds. -/
theorem runAll_perm (hg : g.Reachable) (hperm : ms.Perm ms') {flags : List Bool} {g₁ : GraphVar}
    (hrun : runAll ms g = .ok flags g₁) :
    ∃ flags' g₂, runAll ms' g = .ok flags' g₂ ∧
      (g₁.lower == g₂.lower) = true ∧ (g₁.upper == g₂.upper) = true := by
  have hvalid := hg.valid
  obtain ⟨hnarrows, hadmits⟩ := Attempt.of_wp_ok (runAll_wp ms hvalid) hrun
  have hvalid₁ := hnarrows.valid hvalid
  have haccepts : ∀ H : Shape, (∀ m ∈ ms', m.Accepts H) ↔ ∀ m ∈ ms, m.Accepts H := fun H =>
    forall_congr' fun m => by rw [hperm.mem_iff]
  have hwp := runAll_wp ms' hvalid
  cases hrun' : runAll ms' g with
  | error failure g₂ =>
      -- the graphs that are left after the one order are accepted in the other as well
      obtain ⟨hlower, hall⟩ := (hadmits _).mp hvalid₁.admits_lower
      exact absurd ((haccepts _).mpr hall) (Attempt.of_wp_error hwp hrun' _ hlower)
  | ok flags' g₂ =>
      obtain ⟨hnarrows', hadmits'⟩ := Attempt.of_wp_ok hwp hrun'
      have hvalid₂ := hnarrows'.valid hvalid
      have hagree : Agree g₁ g₂ :=
        .of_admits_iff hvalid₁ hvalid₂ ((hnarrows.order hvalid).trans (hnarrows'.order hvalid).symm)
          ((hnarrows.directed hvalid).trans (hnarrows'.directed hvalid).symm) fun H => by
            rw [hadmits, hadmits', haccepts]
      exact ⟨flags', g₂, rfl, (agree_iff_beq hvalid₁ hvalid₂).mp hagree⟩

/-- A node is enforced before or as an end of its edge, and an edge is removed before or with its
node.  In the reverse order other mutations change something and the log is another one, but the
bounds are equal. -/
theorem runAll_perm_reverse :
    let g := GraphVar.unconstrained 4 false
    let ms := [enforceNode 0, enforceEdge 0 1, removeEdge 3 2, removeNode 3]
    g.Reachable ∧ ms.Perm ms.reverse ∧
      ∃ g₁ g₂, runAll ms g = .ok [true, true, true, true] g₁ ∧
        runAll ms.reverse g = .ok [true, false, true, false] g₂ ∧ g₁.events ≠ g₂.events ∧
        (g₁.lower == g₂.lower) = true ∧ (g₁.upper == g₂.upper) = true := by
  intro g ms
  have hg : g.Reachable := .unconstrained 4 false
  have hperm : ms.Perm ms.reverse := (List.reverse_perm ms).symm
  have hflags : (runAll ms).passes (fun flags _ => flags == [true, true, true, true]) g = true := by
    decide +kernel
  have hflags' : (runAll ms.reverse).passes (fun flags _ => flags == [true, false, true, false]) g =
      true := by decide +kernel
  have hevents : ((runAll ms).after g).events ≠ ((runAll ms.reverse).after g).events := by
    decide +kernel
  clear_value g ms
  obtain ⟨flags, g₁, hrun, heq⟩ := Attempt.passes_iff.mp hflags
  obtain ⟨flags', g₂, hrun', hlower, hupper⟩ := runAll_perm hg hperm hrun
  rw [Attempt.passes, hrun'] at hflags'
  rw [Attempt.after_of_ok hrun, Attempt.after_of_ok hrun'] at hevents
  rw [beq_iff_eq] at heq hflags'
  subst heq hflags'
  exact ⟨hg, hperm, g₁, g₂, hrun, hrun', hevents, hlower, hupper⟩

end Mutation

end GraphVar

end GraphInterval
