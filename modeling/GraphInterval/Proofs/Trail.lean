import GraphInterval.Trail

/-!
# Going back along a trail

The owner of a trail pushes an entry with every change, and from the entry it
knows how to undo the change.  The entries of a trail thus lead from the present
state of the owner back to the states in which its checkpoints were made, however
many of them are nested, and returning to a checkpoint undoes what was pushed
since.
-/

namespace GraphInterval

namespace Trail

variable {α ξ : Type} {t : Trail α} {e : α} {target : Nat}

/-! ### One call -/

theorem toList_delimiters_mark (t : Trail α) :
    t.mark.delimiters.toList = t.delimiters.toList ++ [t.entries.size] := by
  simp [mark]

@[simp]
theorem checkpoint_mark (t : Trail α) : t.mark.checkpoint = t.checkpoint + 1 := by
  simp [checkpoint, mark]

/-- A pushed entry is the first that is handed back. -/
theorem synchronise_push (hle : t.delimiters.getD target 0 ≤ t.entries.size) :
    (t.push e).synchronise target = (t.synchronise target).map fun r => (e :: r.1, r.2) := by
  have hlength : t.delimiters.getD target 0 ≤ t.entries.toList.length := by simpa using hle
  have htake : (t.entries.push e).take (t.delimiters.getD target 0) =
      t.entries.take (t.delimiters.getD target 0) := Array.extract_push_of_le hle
  unfold synchronise
  change (if target < t.checkpoint then _ else _) = _
  split
  · change Except.ok _ = Except.ok _
    rw [push, Array.toList_push, List.drop_append_of_le_length hlength, List.reverse_append, htake]
    rfl
  · rfl

theorem getD_delimiters_mark (hlt : target < t.checkpoint) :
    t.mark.delimiters.getD target 0 = t.delimiters.getD target 0 := by
  have hsize : target < t.delimiters.size := hlt
  simp [mark, Array.getElem?_push_lt hsize, hsize]

/-- A checkpoint is no obstacle on the way to an earlier one. -/
theorem synchronise_mark_of_lt (hlt : target < t.checkpoint) :
    t.mark.synchronise target = t.synchronise target := by
  have hdelimiters : t.mark.delimiters.take target = t.delimiters.take target :=
    Array.extract_push_of_le (Nat.le_of_lt hlt)
  rw [synchronise, synchronise, if_pos hlt, if_pos (by rw [checkpoint_mark]; omega)]
  simp only [getD_delimiters_mark hlt, hdelimiters]
  rfl

/-- A checkpoint without entries hands nothing back. -/
theorem synchronise_mark_checkpoint (t : Trail α) :
    t.mark.synchronise t.checkpoint = .ok ([], t) := by
  have hlast : t.mark.delimiters.getD t.checkpoint 0 = t.entries.size := by
    simp [mark, checkpoint]
  have hentries : t.mark.entries.take t.entries.size = t.entries := by
    simp [mark]
  have hdelimiters : t.mark.delimiters.take t.checkpoint = t.delimiters := by
    simp [mark, checkpoint]
  rw [synchronise, if_pos (by rw [checkpoint_mark]; omega)]
  simp only [hlast, hentries, hdelimiters]
  simp [mark]

/-! ### The way back -/

/-- The entries of a trail lead from a state back to the states in which its checkpoints were made,
oldest first, each together with the trail of that time. -/
inductive LeadsBack (undo : ξ → α → ξ) : ξ → Trail α → List (ξ × Trail α) → Prop where
  | start {x : ξ} : LeadsBack undo x {} []
  | push {x x' : ξ} {t : Trail α} {saved : List (ξ × Trail α)} {e : α} :
      LeadsBack undo x t saved → undo x' e = x → LeadsBack undo x' (t.push e) saved
  | mark {x : ξ} {t : Trail α} {saved : List (ξ × Trail α)} :
      LeadsBack undo x t saved → LeadsBack undo x t.mark (saved ++ [(x, t)])

variable {undo : ξ → α → ξ} {x : ξ} {saved : List (ξ × Trail α)}

theorem LeadsBack.checkpoint_eq (h : LeadsBack undo x t saved) : t.checkpoint = saved.length := by
  induction h with
  | start => rfl
  | push _ _ ih => exact ih
  | mark _ ih => rw [checkpoint_mark, List.length_append, List.length_singleton, ih]

/-- The checkpoints were made on shorter trails. -/
theorem LeadsBack.delimiter_le (h : LeadsBack undo x t saved) :
    ∀ d ∈ t.delimiters.toList, d ≤ t.entries.size := by
  induction h with
  | start => simp
  | push _ _ ih =>
      intro d hd
      exact Nat.le_trans (ih d hd) (by simp [Trail.push])
  | @mark x t saved _ ih =>
      intro d hd
      rw [toList_delimiters_mark] at hd
      obtain hd | hd := List.mem_append.mp hd
      · exact ih d hd
      · exact Nat.le_of_eq (List.mem_singleton.mp hd)

theorem LeadsBack.getD_le (h : LeadsBack undo x t saved) (target : Nat) :
    t.delimiters.getD target 0 ≤ t.entries.size := by
  by_cases hlt : target < t.delimiters.size
  · refine h.delimiter_le _ ?_
    simp [hlt]
  · simp [hlt]

/-- Returning to a checkpoint hands back what undoes the changes since, and leaves the trail that
was there when the checkpoint was made, with its own way back. -/
theorem LeadsBack.synchronise (h : LeadsBack undo x t saved) (htarget : target < saved.length) :
    ∃ undone, t.synchronise target = .ok (undone, saved[target].2) ∧
      undone.foldl undo x = saved[target].1 ∧
      LeadsBack undo saved[target].1 saved[target].2 (saved.take target) := by
  induction h with
  | start => exact absurd htarget (Nat.not_lt_zero _)
  | @push x x' t saved e h hundo ih =>
      obtain ⟨undone, hsync, hfold, hrest⟩ := ih htarget
      refine ⟨e :: undone, ?_, ?_, hrest⟩
      · rw [synchronise_push (h.getD_le target), hsync]
        rfl
      · rw [List.foldl_cons, hundo, hfold]
  | @mark x t saved h ih =>
      have hcheckpoint := h.checkpoint_eq
      -- either the last checkpoint is skipped or the return is to it
      obtain hlt | rfl : target < saved.length ∨ target = saved.length := by
        rw [List.length_append, List.length_singleton] at htarget
        omega
      · obtain ⟨undone, hsync, hfold, hrest⟩ := ih hlt
        rw [List.getElem_append_left hlt, List.take_append_of_le_length (Nat.le_of_lt hlt),
          synchronise_mark_of_lt (hcheckpoint ▸ hlt)]
        exact ⟨undone, hsync, hfold, hrest⟩
      · have hlast : (saved ++ [(x, t)])[saved.length] = (x, t) := List.getElem_concat_length rfl _
        rw [hlast, List.take_left, ← hcheckpoint, synchronise_mark_checkpoint]
        exact ⟨[], rfl, rfl, h⟩

end Trail

end GraphInterval
