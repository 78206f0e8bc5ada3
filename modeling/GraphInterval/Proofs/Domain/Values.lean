import GraphInterval.Domain.Values
import GraphInterval.Proofs.Attempt
import GraphInterval.Proofs.SparseSet

/-!
# The values of a domain

A domain that was created with a value always has one: the last value is never
removed, and going back only puts values in again.  So a domain within a single
value is fixed to it, and stays fixed as long as removals and assignments
succeed.
-/

namespace GraphInterval

namespace Values

variable {d : Values} {v : Nat}

/-- The values form a set that is not empty. -/
structure Valid (d : Values) : Prop where
  members : d.members.Valid
  nonempty : ∃ v, d.contains v = true

/-- The variable has one value. -/
def IsFixedTo (d : Values) (v : Nat) : Prop := ∀ x, d.contains x = true ↔ x = v

theorem size_eq_one_iff (hd : d.Valid) : d.size = 1 ↔ ∃ v, d.IsFixedTo v := by
  rw [size, ← SparseSet.card_members hd.members, Finset.card_eq_one]
  simp only [IsFixedTo, contains, Finset.ext_iff, SparseSet.mem_members hd.members,
    Finset.mem_singleton]

/-- A domain without values other than one is fixed to it. -/
theorem Valid.isFixedTo (hd : d.Valid) (h : ∀ x, d.contains x = true → x = v) :
    d.IsFixedTo v := by
  refine fun x => ⟨h x, ?_⟩
  rintro rfl
  obtain ⟨y, hy⟩ := hd.nonempty
  rwa [← h y hy]

theorem value?_eq_some_iff (hd : d.Valid) : d.value? = some v ↔ d.IsFixedTo v := by
  unfold value? isFixed
  constructor
  · intro h
    split at h
    next hone =>
      obtain ⟨w, hw⟩ := (size_eq_one_iff hd).mp (by simpa using hone)
      have hmem := (SparseSet.mem_toList hd.members).mp (List.mem_of_head? h)
      rwa [← (hw v).mp hmem] at hw
    next => cases h
  · intro h
    have hone : d.size = 1 := (size_eq_one_iff hd).mpr ⟨v, h⟩
    rw [if_pos (by simpa using hone)]
    have hmem : ∀ x, x ∈ d.members.toList ↔ x = v := fun x =>
      (SparseSet.mem_toList hd.members).trans (h x)
    cases hlist : d.members.toList with
    | nil => simpa [hlist] using hmem v
    | cons x rest =>
        rw [List.head?_cons, (hmem x).mp (hlist ▸ List.mem_cons_self)]

/-! ### Removals and assignments -/

theorem contains_drop (hd : d.members.Valid) (v x : Nat) :
    (d.drop v).contains x = true ↔ x ≠ v ∧ d.contains x = true :=
  SparseSet.contains_erase hd v x

theorem foldl_drop_spec (values : List Nat) (hd : d.members.Valid) :
    (values.foldl drop d).members.Valid ∧
      ∀ x, (values.foldl drop d).contains x = true ↔ x ∉ values ∧ d.contains x = true := by
  induction values generalizing d with
  | nil => exact ⟨hd, fun x => by simp⟩
  | cons v values ih =>
      obtain ⟨hvalid, hcontains⟩ := ih (d := d.drop v) (hd.erase v)
      refine ⟨hvalid, fun x => ?_⟩
      rw [List.foldl_cons, hcontains, contains_drop hd, List.mem_cons, not_or, and_left_comm,
        and_assoc]

theorem remove_eq (d : Values) (v : Nat) :
    remove v d =
      if d.contains v = false then .ok false d
      else if d.size = 1 then .error .wipeout d
      else .ok true (d.drop v) := by
  simp only [remove, Bool.not_eq_true']

theorem assign_eq (d : Values) (v : Nat) :
    assign v d =
      if d.contains v = false then .error .wipeout d
      else if d.size = 1 then .ok false d
      else .ok true ((d.members.toList.filter (· != v)).foldl drop d) := by
  simp only [assign, Bool.not_eq_true']

theorem remove_wp (hd : d.Valid) (v : Nat) :
    (remove v).wp
      (fun _ d' => d'.Valid ∧ ∀ x, d'.contains x = true ↔ x ≠ v ∧ d.contains x = true)
      (fun failure d' => failure = .wipeout ∧ d' = d ∧ d.IsFixedTo v) d := by
  rw [Attempt.wp, remove_eq]
  by_cases hv : d.contains v = false
  · rw [if_pos hv]
    refine ⟨hd, fun x => ⟨fun hx => ⟨?_, hx⟩, And.right⟩⟩
    rintro rfl
    exact absurd (hv.symm.trans hx) (by simp)
  rw [if_neg hv]
  rw [Bool.not_eq_false] at hv
  by_cases hone : d.size = 1
  · rw [if_pos hone]
    obtain ⟨w, hw⟩ := (size_eq_one_iff hd).mp hone
    obtain rfl := (hw v).mp hv
    exact ⟨rfl, rfl, hw⟩
  · rw [if_neg hone]
    have hcontains := contains_drop hd.members v
    refine ⟨⟨hd.members.erase v, ?_⟩, hcontains⟩
    by_contra hnone
    push Not at hnone
    -- without another value, the domain would be fixed
    refine hone ((size_eq_one_iff hd).mpr ⟨v, hd.isFixedTo fun x hx => ?_⟩)
    by_contra hne
    exact hnone x ((hcontains x).mpr ⟨hne, hx⟩)

theorem assign_wp (hd : d.Valid) (v : Nat) :
    (assign v).wp (fun _ d' => d'.Valid ∧ d.contains v = true ∧ d'.IsFixedTo v)
      (fun failure d' => failure = .wipeout ∧ d' = d ∧ d.contains v = false) d := by
  rw [Attempt.wp, assign_eq]
  by_cases hv : d.contains v = false
  · rw [if_pos hv]
    exact ⟨rfl, rfl, hv⟩
  rw [if_neg hv]
  rw [Bool.not_eq_false] at hv
  by_cases hone : d.size = 1
  · rw [if_pos hone]
    obtain ⟨w, hw⟩ := (size_eq_one_iff hd).mp hone
    obtain rfl := (hw v).mp hv
    exact ⟨hd, hv, hw⟩
  · rw [if_neg hone]
    obtain ⟨hvalid, hcontains⟩ := foldl_drop_spec (d.members.toList.filter (· != v)) hd.members
    have hfixed : ((d.members.toList.filter (· != v)).foldl drop d).IsFixedTo v := by
      intro x
      rw [hcontains, List.mem_filter, SparseSet.mem_toList hd.members]
      constructor
      · rintro ⟨hnot, hx⟩
        by_contra hne
        exact hnot ⟨hx, by simpa using hne⟩
      · rintro rfl
        exact ⟨by simp, hv⟩
    exact ⟨⟨hvalid, v, (hfixed v).mpr rfl⟩, hv, hfixed⟩

/-- Assigning the value that a variable has changes nothing. -/
theorem assign_of_isFixedTo (hd : d.Valid) (h : d.IsFixedTo v) : assign v d = .ok false d := by
  have hv : d.contains v = true := (h v).mpr rfl
  have hone : d.size = 1 := (size_eq_one_iff hd).mpr ⟨v, h⟩
  rw [assign_eq, if_neg (by simp [hv]), if_pos hone]

/-! ### Reachable domains -/

/-- The domains that are created with some values, changed, marked, and taken back to
checkpoints. -/
inductive Reachable : Values → Prop where
  | make {capacity : Nat} {values : List Nat} {d : Values} :
      Values.make capacity values = .ok d → Reachable d
  | remove {d : Values} (v : Nat) : Reachable d → Reachable ((Values.remove v).after d)
  | assign {d : Values} (v : Nat) : Reachable d → Reachable ((Values.assign v).after d)
  | mark {d : Values} : Reachable d → Reachable d.mark
  | synchronise {d d' : Values} {target : Nat} : Reachable d →
      Values.synchronise target d = .ok () d' → Reachable d'

theorem valid_tryInsertAll {s t : SparseSet} (hs : s.Valid) (values : List Nat)
    (h : s.tryInsertAll values = .ok t) : t.Valid := by
  unfold SparseSet.tryInsertAll at h
  induction values generalizing s with
  | nil =>
      cases h
      exact hs
  | cons v values ih =>
      rw [List.foldlM_cons] at h
      unfold SparseSet.tryInsert at h
      split at h
      · exact ih (hs.insert v) h
      · cases h

theorem valid_make {capacity : Nat} {values : List Nat}
    (h : make capacity values = .ok d) : d.Valid := by
  unfold make at h
  split at h
  next => cases h
  next members hinsert =>
    split at h
    next => cases h
    next hempty =>
      cases h
      have hvalid := valid_tryInsertAll (SparseSet.valid_empty capacity) values hinsert
      refine ⟨hvalid, ?_⟩
      rw [SparseSet.isEmpty_iff hvalid] at hempty
      simpa [contains] using hempty

/-- Putting values in again keeps the others. -/
theorem valid_foldl_insert (values : List Nat) {s : SparseSet} (hs : s.Valid) :
    (values.foldl SparseSet.insert s).Valid ∧
      ∀ x, s.contains x = true → (values.foldl SparseSet.insert s).contains x = true := by
  induction values generalizing s with
  | nil => exact ⟨hs, fun _ hx => hx⟩
  | cons v values ih =>
      obtain ⟨hvalid, hcontains⟩ := ih (hs.insert v)
      refine ⟨hvalid, fun x hx => hcontains x ?_⟩
      rw [SparseSet.contains_insert hs]
      exact .inr hx

theorem Reachable.valid (hd : d.Reachable) : d.Valid := by
  induction hd with
  | make hmake => exact valid_make hmake
  | remove v _ ih =>
      refine Attempt.after_of_wp (P := Values.Valid) (Attempt.wp_mono (remove_wp ih v) ?_ ?_)
      · exact fun _ _ h => h.1
      · exact fun _ _ h => h.2.1 ▸ ih
  | assign v _ ih =>
      refine Attempt.after_of_wp (P := Values.Valid) (Attempt.wp_mono (assign_wp ih v) ?_ ?_)
      · exact fun _ _ h => h.1
      · exact fun _ _ h => h.2.1 ▸ ih
  | mark _ ih => exact ⟨ih.members, ih.nonempty⟩
  | @synchronise d d' target _ hsync ih =>
      unfold Values.synchronise at hsync
      cases htrail : d.trail.synchronise target with
      | error fault =>
          rw [htrail] at hsync
          cases hsync
      | ok result =>
          rw [htrail] at hsync
          cases hsync
          obtain ⟨hvalid, hcontains⟩ := valid_foldl_insert result.1 ih.members
          obtain ⟨v, hv⟩ := ih.nonempty
          exact ⟨hvalid, v, hcontains v hv⟩

end Values

end GraphInterval
