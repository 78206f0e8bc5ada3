import GraphInterval.Proofs.GraphVar.Reachable
import Mathlib.Data.List.GetD

/-!
# Backtracking

Between a checkpoint and the return to it a variable is mutated, marked, and
taken back to later checkpoints.  Throughout, the log extends the log of the
checkpoint, and taking back what was added to it restores the bounds that the
variable had then.  The return to the checkpoint therefore never meets a node
that still has edges, and leaves nothing of what happened since.
-/

namespace GraphInterval

namespace GraphVar

variable {g g' h s s' t : GraphVar}

/-! ### Taking events back -/

theorem Retractable.within {l : List Event} (h : Retractable l g) : ∀ e ∈ l, e.Within g.order := by
  induction l generalizing g with
  | nil => simp
  | cons e l ih =>
      obtain ⟨hvalid, he, g', hundo, hrest⟩ := h
      obtain ⟨-, horder, -⟩ := hvalid.undo he hundo
      rw [List.forall_mem_cons]
      exact ⟨he, horder ▸ ih hrest⟩

/-- Where taking events back leads depends on the bounds only. -/
theorem Retractable.foldlM_congr {undone rest : List Event}
    (hg : Retractable (undone ++ rest) g) (hgh : Agree g h) (hh : h.Valid)
    (hfold : undone.foldlM GraphVar.undo g = .ok g') :
    ∃ h', undone.foldlM GraphVar.undo h = .ok h' ∧ Agree g' h' := by
  induction undone generalizing g h with
  | nil =>
      cases hfold
      exact ⟨h, rfl, hgh⟩
  | cons e undone ih =>
      obtain ⟨hvalid, he, g₁, hundo, hrest⟩ := hg
      obtain ⟨h₁, hundo', hagree⟩ := hgh.undo hvalid hh he hundo
      rw [List.foldlM_cons, hundo] at hfold
      rw [List.foldlM_cons, hundo']
      exact ih hrest hagree (hh.undo (hgh.order ▸ he) hundo').1 hfold

/-- Taking the events back in the given order restores the bounds of a variable. -/
def RestoredBy (undone : List Event) (g s : GraphVar) : Prop :=
  ∃ t, undone.foldlM GraphVar.undo s = .ok t ∧ Agree t g

theorem RestoredBy.congr {undone rest : List Event} (hs : RestoredBy undone g s)
    (hretractable : Retractable (undone ++ rest) s) (hst : Agree s t) (ht : t.Valid) :
    RestoredBy undone g t := by
  obtain ⟨u, hfold, hagree⟩ := hs
  obtain ⟨u', hfold', hagree'⟩ := hretractable.foldlM_congr hst ht hfold
  exact ⟨u', hfold', hagree'.symm.trans hagree⟩

/-- A part of the events can be taken back first. -/
theorem RestoredBy.of_append {undone rest : List Event} (hs : RestoredBy (undone ++ rest) g s)
    (hfold : undone.foldlM GraphVar.undo s = .ok t) : RestoredBy rest g t := by
  obtain ⟨u, hfold', hagree⟩ := hs
  rw [List.foldlM_append, hfold] at hfold'
  exact ⟨u, hfold', hagree⟩

/-! ### Excursions from a checkpoint -/

/-- The states between making a checkpoint and returning to it.  A call that asks
for a checkpoint that does not exist changes nothing. -/
inductive Excursion (g : GraphVar) : GraphVar → Prop where
  | start : Excursion g g.mark
  | mutate {s : GraphVar} (m : Mutation) : Excursion g s → Excursion g (m.run.after s)
  | mark {s : GraphVar} : Excursion g s → Excursion g s.mark
  | synchronise {s : GraphVar} {target : Nat} : Excursion g s → g.checkpoint < target →
      Excursion g ((GraphVar.synchronise target).after s)

/-- The log extends the log of the checkpoint, and what was added leads back to it. -/
structure Returns (g s : GraphVar) : Prop where
  retractable : Retractable s.events.reverse s
  events : ∃ news, s.events = g.events ++ news ∧ RestoredBy news.reverse g s
  delimiters : ∃ later, s.log.delimiters.toList =
    g.log.delimiters.toList ++ g.events.length :: later ∧ ∀ d ∈ later, g.events.length ≤ d

theorem Returns.start (hg : Retractable g.events.reverse g) : Returns g g.mark where
  retractable := hg.mark
  events := ⟨[], (List.append_nil _).symm, g.mark, rfl, rfl, rfl, rfl, rfl⟩
  delimiters := ⟨[], by simp [GraphVar.mark, Trail.mark, GraphVar.events], by simp⟩

theorem Change.delimiters (h : Change g g') : g'.log.delimiters = g.log.delimiters := by
  cases h <;> rfl

theorem Returns.change (hs : Returns g s) (hchange : Change s s') : Returns g s' := by
  have hvalid := hs.retractable.valid
  obtain ⟨e, t, hevents, he, hundo, hagree⟩ := hchange.undo hvalid
  obtain ⟨news, hnews, hrestored⟩ := hs.events
  refine ⟨(Narrows.retractable (.single hchange) hs.retractable), ⟨news ++ [e], ?_, ?_⟩, ?_⟩
  · rw [hevents, hnews, List.append_assoc]
  · have hretractable := hs.retractable
    rw [hnews, List.reverse_append] at hretractable
    obtain ⟨u, hfold, hu⟩ := hrestored.congr hretractable hagree.symm
      ((hchange.valid hvalid).undo he hundo).1
    refine ⟨u, ?_, hu⟩
    rw [List.reverse_append, List.reverse_singleton, List.singleton_append, List.foldlM_cons,
      hundo]
    exact hfold
  · rw [hchange.delimiters]
    exact hs.delimiters

theorem Returns.narrows (hs : Returns g s) (hnarrows : Narrows s s') : Returns g s' := by
  induction hnarrows with
  | refl => exact hs
  | tail _ hchange ih => exact ih.change hchange

theorem Returns.mark (hs : Returns g s) : Returns g s.mark := by
  obtain ⟨news, hnews, hrestored⟩ := hs.events
  obtain ⟨later, hlater, hle⟩ := hs.delimiters
  have hretractable := hs.retractable
  rw [hnews, List.reverse_append] at hretractable
  refine ⟨hs.retractable.mark, ⟨news, hnews, hrestored.congr hretractable ⟨rfl, rfl, rfl, rfl⟩
    hs.retractable.mark.valid⟩, later ++ [s.events.length], ?_, ?_⟩
  · simp [GraphVar.mark, Trail.mark, hlater, GraphVar.events]
  · intro d hd
    obtain hd | hd := List.mem_append.mp hd
    · exact hle d hd
    · rw [List.mem_singleton.mp hd, hnews, List.length_append]
      exact Nat.le_add_right _ _

theorem lengthAt_eq (g : GraphVar) (target : Nat) :
    g.lengthAt target = g.log.delimiters.toList.getD target 0 := by
  simp [lengthAt]

/-- The checkpoint was made after the events that were on the log then. -/
theorem Returns.lengthAt_checkpoint (hs : Returns g s) :
    g.checkpoint < s.checkpoint ∧ s.lengthAt g.checkpoint = g.events.length := by
  obtain ⟨later, hdelimiters, -⟩ := hs.delimiters
  have hsize : g.log.delimiters.toList.length = g.checkpoint := Array.length_toList
  have hsize' : s.log.delimiters.toList.length = s.checkpoint := Array.length_toList
  constructor
  · rw [← hsize, ← hsize', hdelimiters, List.length_append, List.length_cons]
    omega
  · rw [lengthAt_eq, hdelimiters, List.getD_append_right _ _ _ _ hsize.le, hsize,
      Nat.sub_self, List.getD_cons_zero]

/-- Later checkpoints were made with more events on the log. -/
theorem Returns.le_lengthAt (hs : Returns g s) {target : Nat} (hlater : g.checkpoint < target)
    (htarget : target < s.checkpoint) : g.events.length ≤ s.lengthAt target := by
  obtain ⟨later, hdelimiters, hle⟩ := hs.delimiters
  have hsize : g.log.delimiters.toList.length = g.checkpoint := Array.length_toList
  have hsize' : s.log.delimiters.toList.length = s.checkpoint := Array.length_toList
  rw [hdelimiters, List.length_append, List.length_cons] at hsize'
  obtain ⟨k, rfl⟩ : ∃ k, target = g.checkpoint + 1 + k := ⟨target - (g.checkpoint + 1), by omega⟩
  have hk : k < later.length := by omega
  rw [lengthAt_eq, hdelimiters, List.getD_append_right _ _ _ _ (by omega), hsize,
    show g.checkpoint + 1 + k - g.checkpoint = k + 1 by omega, List.getD_cons_succ,
    List.getD_eq_getElem _ _ hk]
  exact hle _ (List.getElem_mem hk)

/-- Going back to a later checkpoint keeps the log of the earlier one. -/
theorem Returns.synchronise (hs : Returns g s) {target : Nat} (hlater : g.checkpoint < target) :
    Returns g ((GraphVar.synchronise target).after s) := by
  by_cases htarget : target < s.checkpoint
  · obtain ⟨t, hsync, hretractable, hlog, hfold⟩ := hs.retractable.synchronise htarget
    have hafter : (GraphVar.synchronise target).after s = t := by rw [Attempt.after, hsync]
    have hlength := hs.le_lengthAt hlater htarget
    obtain ⟨news, hnews, hrestored⟩ := hs.events
    obtain ⟨later, hdelimiters, hle⟩ := hs.delimiters
    rw [hafter]
    obtain ⟨k, hk⟩ := Nat.exists_eq_add_of_le hlength
    refine ⟨hretractable, ⟨news.take k, ?_, ?_⟩, later.take (target - g.checkpoint - 1), ?_, ?_⟩
    · have hevents : t.events = (s.cut target).events := by rw [GraphVar.events, hlog]; rfl
      rw [hevents, events_cut, hnews, hk, List.take_length_add_append]
    · have hnewest := hs.retractable
      rw [hnews, List.reverse_append] at hnewest
      have hcut : RestoredBy news.reverse g (s.cut target) :=
        hrestored.congr hnewest (.cut s target) (hs.retractable.valid.cut target)
      rw [← List.take_append_drop k news, List.reverse_append] at hcut
      rw [hnews, hk, List.drop_length_add_append] at hfold
      exact hcut.of_append hfold
    · obtain ⟨i, hi⟩ : ∃ i, target = g.checkpoint + (i + 1) :=
        ⟨target - g.checkpoint - 1, by omega⟩
      have hsize : g.log.delimiters.toList.length = g.checkpoint := Array.length_toList
      rw [hlog, delimiters_cut, hdelimiters, hi, ← hsize, List.take_length_add_append,
        List.take_succ_cons]
      simp
    · exact fun d hd => hle d (List.mem_of_mem_take hd)
  · have hafter : (GraphVar.synchronise target).after s = s := by
      rw [Attempt.after, GraphVar.synchronise, Trail.synchronise,
        if_neg (show ¬ target < s.log.checkpoint from htarget)]
    rw [hafter]
    exact hs

theorem Excursion.returns (hg : Retractable g.events.reverse g) (hs : Excursion g s) :
    Returns g s := by
  induction hs with
  | start => exact .start hg
  | mutate m _ ih => exact ih.narrows (m.narrows ih.retractable.valid)
  | mark _ ih => exact ih.mark
  | synchronise _ hlater ih => exact ih.synchronise hlater

/-- The return to the checkpoint succeeds and restores bounds and log. -/
theorem Returns.exists_synchronise (hs : Returns g s) :
    ∃ t, GraphVar.synchronise g.checkpoint s = .ok () t ∧ t.Valid ∧ Agree t g ∧
      t.log = g.log := by
  obtain ⟨hlt, hlength⟩ := hs.lengthAt_checkpoint
  obtain ⟨t, hsync, hretractable, hlog, hfold⟩ := hs.retractable.synchronise hlt
  obtain ⟨news, hnews, hrestored⟩ := hs.events
  obtain ⟨later, hdelimiters, -⟩ := hs.delimiters
  have hnewest := hs.retractable
  rw [hnews, List.reverse_append] at hnewest
  obtain ⟨u, hfold', hagree⟩ :=
    hrestored.congr hnewest (.cut s g.checkpoint) (hs.retractable.valid.cut g.checkpoint)
  rw [hlength, hnews, List.drop_left, hfold', Except.ok.injEq] at hfold
  refine ⟨t, hsync, hretractable.valid, hfold ▸ hagree, hlog.trans ?_⟩
  have hentries : (s.cut g.checkpoint).log.entries = g.log.entries := by
    rw [← Array.toList_inj]
    have hcut := events_cut s g.checkpoint
    rwa [hlength, hnews, List.take_left] at hcut
  have hmarks : (s.cut g.checkpoint).log.delimiters = g.log.delimiters := by
    rw [← Array.toList_inj, delimiters_cut, hdelimiters, checkpoint, Trail.checkpoint,
      ← Array.length_toList, List.take_left]
  exact congrArg₂ Trail.mk hentries hmarks

/-- Whatever happened since a checkpoint, the return to it breaks no contract and
restores the bounds, the log and the number of checkpoints. -/
theorem Excursion.synchronise_restores (hg : g.Reachable) (hs : Excursion g s) :
    (∀ e ∈ s.events, e.Within s.order) ∧
      ∃ t, GraphVar.synchronise g.checkpoint s = .ok () t ∧
        t.lower.isSubgraphOf t.upper = true ∧
        (t.lower == g.lower) = true ∧ (t.upper == g.upper) = true ∧
        t.events = g.events ∧ t.checkpoint = g.checkpoint := by
  have hreturns := hs.returns hg.retractable
  obtain ⟨t, hsync, hvalid, hagree, hlog⟩ := hreturns.exists_synchronise
  obtain ⟨hlower, hupper⟩ := (agree_iff_beq hvalid hg.valid).mp hagree
  refine ⟨fun e he => hreturns.retractable.within e (List.mem_reverse.mpr he), t, hsync,
    (Graph.isSubgraphOf_iff hvalid.lower).mpr hvalid.le, hlower, hupper, ?_, ?_⟩
  · rw [events, events, hlog]
  · rw [checkpoint, checkpoint, hlog]

/-- Edges are enforced and a node is removed with its edges, across a nested
checkpoint: both bounds change, and the return restores them. -/
theorem Excursion.synchronise_restores_nested :
    let g := (Mutation.enforceEdge 0 1).run.after (GraphVar.unconstrained 4 false)
    let s := (Mutation.removeNode 3).run.after
      ((Mutation.enforceEdge 1 2).run.after g.mark).mark
    g.Reachable ∧ Excursion g s ∧ s.checkpoint = 2 ∧ s.events.length = 9 ∧
      (s.lower == g.lower) = false ∧ (s.upper == g.upper) = false ∧
      ∃ t, GraphVar.synchronise g.checkpoint s = .ok () t ∧
        (t.lower == g.lower) = true ∧ (t.upper == g.upper) = true ∧ t.events = g.events := by
  intro g s
  have hg : g.Reachable := .mutate _ (.unconstrained 4 false)
  have hs : Excursion g s := .mutate _ (.mark (.mutate _ .start))
  obtain ⟨-, t, hsync, -, hlower, hupper, hevents, -⟩ := hs.synchronise_restores hg
  exact ⟨hg, hs, by decide +kernel, by decide +kernel, by decide +kernel, by decide +kernel,
    t, hsync, hlower, hupper, hevents⟩

end GraphVar

end GraphInterval
