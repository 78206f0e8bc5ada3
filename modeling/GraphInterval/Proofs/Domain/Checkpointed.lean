import GraphInterval.Proofs.Attempt
import GraphInterval.Proofs.Trail
import Mathlib.Data.Set.Basic

/-!
# Checkpointed domains

A checkpointed domain is a set of values that its mutations restrict.  A trail
records the changes, so that the domain can be taken back to the checkpoints
that were made on the way.  How a domain holds its values and what it records
differ from one kind to the other; if every single call of a kind behaves as it
should, then its domains are exact after any sequence of calls.
-/

namespace GraphInterval

/-- A kind of domain with states `σ` and mutations `μ`, which holds values `α` and records
changes `τ`. -/
structure Checkpointed (σ μ α τ : Type) where
  values : σ → Set α
  trail : σ → Trail τ
  /-- The values that a mutation does not exclude. -/
  accepts : μ → Set α
  mutate : μ → Attempt σ Bool
  mark : σ → σ
  synchronise : Nat → Attempt σ Unit

namespace Checkpointed

variable {σ μ α τ : Type} (D : Checkpointed σ μ α τ)

/-- The states of a domain, each with the states in which its checkpoints were made, oldest first.
Mutations may fail, and a call that asks for a checkpoint that does not exist changes nothing. -/
inductive Run (start : σ) : σ → List σ → Prop where
  | start : Run start start []
  | mutate {s : σ} {saved : List σ} (m : μ) :
      Run start s saved → Run start ((D.mutate m).after s) saved
  | mark {s : σ} {saved : List σ} : Run start s saved → Run start (D.mark s) (saved ++ [s])
  | synchronise {s : σ} {saved : List σ} (target : Nat) :
      Run start s saved → Run start ((D.synchronise target).after s) (saved.take target)

/-- A mutation restricts the values, unless none would be left, and the way back to a checkpoint
leads to the values and the trail of its time. -/
structure Exact (s : σ) (saved : List σ) : Prop where
  nonempty : (D.values s).Nonempty
  fails_iff : ∀ m, (∃ failure s', D.mutate m s = .error failure s') ↔
    D.values s ∩ D.accepts m = ∅
  of_error : ∀ m failure s', D.mutate m s = .error failure s' → failure = .wipeout ∧ s' = s
  of_ok : ∀ m changed s', D.mutate m s = .ok changed s' →
    D.values s' = D.values s ∩ D.accepts m ∧ (changed = true ↔ D.values s' ≠ D.values s)
  restores : ∀ target (h : target < saved.length), ∃ s', D.synchronise target s = .ok () s' ∧
    D.values s' = D.values saved[target] ∧ D.trail s' = D.trail saved[target]
  rejects : ∀ target, saved.length ≤ target → D.synchronise target s =
    .error (.fault (.unreachableCheckpoint target saved.length)) s

/-! ### Lawful calls -/

/-- A mutation leaves the values that it accepts, or fails without effect if there are none.  What
it records leads back to where it started. -/
def Restricts (undo : Set α → τ → Set α) (Valid : σ → Prop) (m : μ) (s : σ) : Prop :=
  (D.mutate m).wp
    (fun changed s' => Valid s' ∧ D.values s' = D.values s ∩ D.accepts m ∧
      (changed = true ↔ D.values s' ≠ D.values s) ∧
      ∀ saved, Trail.LeadsBack undo (D.values s) (D.trail s) saved →
        Trail.LeadsBack undo (D.values s') (D.trail s') saved)
    (fun failure s' => failure = .wipeout ∧ s' = s ∧ D.values s ∩ D.accepts m = ∅) s

/-- What the single calls of a domain do.  `undo` tells which values are there again after an entry
of the trail was taken back. -/
structure Lawful (undo : Set α → τ → Set α) (Valid : σ → Prop) : Prop where
  nonempty : ∀ s, Valid s → (D.values s).Nonempty
  mutate : ∀ m s, Valid s → D.Restricts undo Valid m s
  mark : ∀ s, Valid s → Valid (D.mark s) ∧ D.values (D.mark s) = D.values s ∧
    D.trail (D.mark s) = (D.trail s).mark
  synchronise : ∀ s target undone t, Valid s → (D.trail s).synchronise target = .ok (undone, t) →
    (undone.foldl undo (D.values s)).Nonempty →
    ∃ s', D.synchronise target s = .ok () s' ∧ Valid s' ∧
      D.values s' = undone.foldl undo (D.values s) ∧ D.trail s' = t
  synchronise_error : ∀ s target fault, (D.trail s).synchronise target = .error fault →
    D.synchronise target s = .error (.fault fault) s

variable {D} {undo : Set α → τ → Set α} {Valid : σ → Prop} {start s : σ} {saved : List σ} {m : μ}

theorem Restricts.of_wipeout (hrun : D.mutate m s = .error .wipeout s)
    (hnone : ∀ x ∈ D.values s, x ∉ D.accepts m) : D.Restricts undo Valid m s := by
  rw [Restricts, Attempt.wp, hrun]
  exact ⟨rfl, rfl, Set.eq_empty_iff_forall_notMem.mpr fun x hx => hnone x hx.1 hx.2⟩

theorem Restricts.of_unchanged (hs : Valid s) (hrun : D.mutate m s = .ok false s)
    (hall : ∀ x ∈ D.values s, x ∈ D.accepts m) : D.Restricts undo Valid m s := by
  refine Attempt.wp_of_ok hrun ⟨hs, (Set.inter_eq_left.mpr hall).symm, ?_, fun _ hback => hback⟩
  exact iff_of_false Bool.false_ne_true fun hne => hne rfl

theorem Restricts.of_changed {s' : σ} (hs' : Valid s') (hrun : D.mutate m s = .ok true s')
    (hiff : ∀ x, x ∈ D.values s' ↔ x ∈ D.values s ∧ x ∈ D.accepts m)
    (hlost : ∃ x ∈ D.values s, x ∉ D.accepts m)
    (hback : ∀ saved, Trail.LeadsBack undo (D.values s) (D.trail s) saved →
      Trail.LeadsBack undo (D.values s') (D.trail s') saved) : D.Restricts undo Valid m s := by
  refine Attempt.wp_of_ok hrun ⟨hs', Set.ext hiff, iff_of_true rfl fun heq => ?_, hback⟩
  obtain ⟨x, hx, hnot⟩ := hlost
  exact hnot ((hiff x).mp (heq ▸ hx)).2

/-- The trail of a valid state leads back to the checkpoints, and there were values at each. -/
structure Kept (D : Checkpointed σ μ α τ) (undo : Set α → τ → Set α) (Valid : σ → Prop) (s : σ)
    (saved : List σ) : Prop where
  valid : Valid s
  nonempty : ∀ c ∈ saved, (D.values c).Nonempty
  leadsBack : Trail.LeadsBack undo (D.values s) (D.trail s)
    (saved.map fun c => (D.values c, D.trail c))

theorem Kept.mutate (hD : D.Lawful undo Valid) (h : Kept D undo Valid s saved) (m : μ) :
    Kept D undo Valid ((D.mutate m).after s) saved := by
  refine Attempt.after_of_wp (P := (Kept D undo Valid · saved))
    (Attempt.wp_mono (hD.mutate m s h.valid) ?_ ?_)
  · rintro changed s' ⟨hvalid, -, -, hback⟩
    exact ⟨hvalid, h.nonempty, hback _ h.leadsBack⟩
  · rintro failure s' ⟨-, rfl, -⟩
    exact h

theorem Kept.mark (hD : D.Lawful undo Valid) (h : Kept D undo Valid s saved) :
    Kept D undo Valid (D.mark s) (saved ++ [s]) := by
  obtain ⟨hvalid, hvalues, htrail⟩ := hD.mark s h.valid
  refine ⟨hvalid, fun c hc => ?_, ?_⟩
  · obtain hc | hc := List.mem_append.mp hc
    · exact h.nonempty c hc
    · rw [List.mem_singleton.mp hc]
      exact hD.nonempty s h.valid
  · rw [hvalues, htrail, List.map_append, List.map_singleton]
    exact h.leadsBack.mark

/-- The way back to a checkpoint succeeds, whatever checkpoints lie in between. -/
theorem Kept.restores (hD : D.Lawful undo Valid) (h : Kept D undo Valid s saved) {target : Nat}
    (htarget : target < saved.length) :
    ∃ s', D.synchronise target s = .ok () s' ∧ D.values s' = D.values saved[target] ∧
      D.trail s' = D.trail saved[target] ∧ Kept D undo Valid s' (saved.take target) := by
  obtain ⟨undone, hundone, hfold, hrest⟩ := h.leadsBack.synchronise
    (show target < (saved.map fun c => (D.values c, D.trail c)).length by rwa [List.length_map])
  rw [List.getElem_map] at hundone hfold hrest
  rw [← List.map_take] at hrest
  -- there were values at the checkpoint, so what is reached is valid again
  obtain ⟨s', hsync, hvalid, hvalues, htrail⟩ := hD.synchronise s target _ _ h.valid hundone
    (hfold ▸ h.nonempty _ (List.getElem_mem htarget))
  rw [hfold] at hvalues
  refine ⟨s', hsync, hvalues, htrail, hvalid, fun c hc => ?_, ?_⟩
  · exact h.nonempty c (List.mem_of_mem_take hc)
  · rw [hvalues, htrail]
    exact hrest

theorem Kept.rejects (hD : D.Lawful undo Valid) (h : Kept D undo Valid s saved) {target : Nat}
    (htarget : saved.length ≤ target) : D.synchronise target s =
      .error (.fault (.unreachableCheckpoint target saved.length)) s := by
  have hcheckpoint : (D.trail s).checkpoint = saved.length := by
    rw [h.leadsBack.checkpoint_eq, List.length_map]
  refine hD.synchronise_error s target _ ?_
  rw [Trail.synchronise, if_neg (by omega), hcheckpoint]

theorem Kept.synchronise (hD : D.Lawful undo Valid) (h : Kept D undo Valid s saved)
    (target : Nat) : Kept D undo Valid ((D.synchronise target).after s) (saved.take target) := by
  by_cases htarget : target < saved.length
  · obtain ⟨s', hsync, -, -, hkept⟩ := h.restores hD htarget
    rwa [Attempt.after_of_ok hsync]
  · have hle : saved.length ≤ target := Nat.le_of_not_lt htarget
    rw [Attempt.after, h.rejects hD hle, List.take_of_length_le hle]
    exact h

theorem Run.kept (hD : D.Lawful undo Valid) (hstart : Valid start) (htrail : D.trail start = {})
    (h : D.Run start s saved) : Kept D undo Valid s saved := by
  induction h with
  | start =>
      refine ⟨hstart, by simp, ?_⟩
      rw [htrail]
      exact .start
  | mutate m _ ih => exact ih.mutate hD m
  | mark _ ih => exact ih.mark hD
  | synchronise target _ ih => exact ih.synchronise hD target

theorem Kept.exact (hD : D.Lawful undo Valid) (h : Kept D undo Valid s saved) :
    D.Exact s saved where
  nonempty := hD.nonempty s h.valid
  fails_iff m := by
    have hwp := hD.mutate m s h.valid
    constructor
    · rintro ⟨failure, s', hrun⟩
      exact (Attempt.of_wp_error hwp hrun).2.2
    · intro hnone
      cases hrun : D.mutate m s with
      | error failure s' => exact ⟨failure, s', rfl⟩
      | ok changed s' =>
          obtain ⟨hvalid, hvalues, -⟩ := Attempt.of_wp_ok hwp hrun
          exact absurd (hvalues.trans hnone) (hD.nonempty s' hvalid).ne_empty
  of_error m failure s' hrun := by
    obtain ⟨hfailure, hsame, -⟩ := Attempt.of_wp_error (hD.mutate m s h.valid) hrun
    exact ⟨hfailure, hsame⟩
  of_ok m changed s' hrun := by
    obtain ⟨-, hvalues, hchanged, -⟩ := Attempt.of_wp_ok (hD.mutate m s h.valid) hrun
    exact ⟨hvalues, hchanged⟩
  restores target htarget := by
    obtain ⟨s', hsync, hvalues, htrail, -⟩ := h.restores hD htarget
    exact ⟨s', hsync, hvalues, htrail⟩
  rejects _ htarget := h.rejects hD htarget

/-- If its calls are lawful, a domain is exact after every sequence of calls. -/
theorem Lawful.exact (hD : D.Lawful undo Valid) (hstart : Valid start)
    (htrail : D.trail start = {}) (h : D.Run start s saved) : D.Exact s saved :=
  (h.kept hD hstart htrail).exact hD

end Checkpointed

end GraphInterval
