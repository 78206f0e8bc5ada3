import GraphInterval.Domain.Bounds
import GraphInterval.Proofs.Domain.Checkpointed
import GraphInterval.Proofs.Domain.Values

/-!
# Intervals and value sets are exact

Both kinds of domains are checkpointed domains whose calls are lawful.  An
interval records its bounds before every change and returns to the oldest of
those that are undone; a value set records every value that it loses and takes
all of them in again.
-/

namespace GraphInterval

/-! ### Intervals -/

namespace Bounds

variable {b : Bounds}

/-- A change of a bound. -/
inductive Mutation where
  | raiseLower (bound : Int)
  | lowerUpper (bound : Int)
  deriving DecidableEq, Repr

namespace Mutation

def run : Mutation → Attempt Bounds Bool
  | raiseLower bound => Bounds.raiseLower bound
  | lowerUpper bound => Bounds.lowerUpper bound

def accepts : Mutation → Set Int
  | raiseLower bound => {x | bound ≤ x}
  | lowerUpper bound => {x | x ≤ bound}

end Mutation

/-- The integers between two bounds, in the order by which the bounds are compared. -/
def between (lower upper : Int) : Set Int := {x | lower ≤ x ∧ x ≤ upper}

theorem nonempty_between {lower upper : Int} :
    (between lower upper).Nonempty ↔ lower ≤ upper := by
  constructor
  · rintro ⟨x, hlower, hupper⟩
    exact Int.le_trans hlower hupper
  · exact fun h => ⟨lower, Int.le_refl lower, h⟩

/-- Integers between two bounds determine the bounds. -/
theorem between_inj {lower upper lower' upper' : Int} (h : lower ≤ upper)
    (hsame : between lower upper = between lower' upper') : lower = lower' ∧ upper = upper' := by
  have h' : lower' ≤ upper' := nonempty_between.mp (hsame ▸ nonempty_between.mpr h)
  have hlower : lower ∈ between lower' upper' := hsame ▸ ⟨Int.le_refl lower, h⟩
  have hupper : upper ∈ between lower' upper' := hsame ▸ ⟨h, Int.le_refl upper⟩
  have hlower' : lower' ∈ between lower upper := hsame.symm ▸ ⟨Int.le_refl lower', h'⟩
  have hupper' : upper' ∈ between lower upper := hsame.symm ▸ ⟨h', Int.le_refl upper'⟩
  exact ⟨Int.le_antisymm hlower'.1 hlower.1, Int.le_antisymm hupper.2 hupper'.2⟩

def values (b : Bounds) : Set Int := between b.lower b.upper

/-- Intervals as checkpointed domains. -/
def checkpointed : Checkpointed Bounds Mutation Int (Int × Int) where
  values := values
  trail := trail
  accepts := Mutation.accepts
  mutate := Mutation.run
  mark := mark
  synchronise := synchronise

/-- Taking an entry back restores the bounds it holds. -/
def restore (_ : Set Int) (entry : Int × Int) : Set Int := between entry.1 entry.2

/-- The entry that is taken back last decides. -/
theorem foldl_restore (undone : List (Int × Int)) (entry : Int × Int) :
    undone.foldl restore (between entry.1 entry.2) =
      between (undone.getLastD entry).1 (undone.getLastD entry).2 := by
  induction undone generalizing entry with
  | nil => rfl
  | cons e undone ih =>
      rw [List.foldl_cons, List.getLastD_cons]
      exact ih e

/-- The interval after taking entries back. -/
def back (b : Bounds) (undone : List (Int × Int)) (t : Trail (Int × Int)) : Bounds :=
  { lower := (undone.getLastD (b.lower, b.upper)).1
    upper := (undone.getLastD (b.lower, b.upper)).2
    trail := t }

/-- Neither bound is on the wrong side of the other. -/
def Valid (b : Bounds) : Prop := b.lower ≤ b.upper

theorem valid_make {lower upper : Int} (h : make lower upper = .ok b) :
    b.Valid ∧ b.trail = {} := by
  unfold make at h
  split at h
  next => cases h
  next hle =>
    cases h
    exact ⟨Int.not_lt.mp hle, rfl⟩

/-- An interval is determined by its values and its trail. -/
theorem eq_of_values_eq {b' : Bounds} (h : b.Valid) (hvalues : b.values = b'.values)
    (htrail : b.trail = b'.trail) : b = b' := by
  obtain ⟨hlower, hupper⟩ := between_inj h hvalues
  cases b
  cases b'
  rw [mk.injEq]
  exact ⟨hlower, hupper, htrail⟩

theorem restricts_raiseLower (h : b.Valid) (bound : Int) :
    checkpointed.Restricts restore Valid (.raiseLower bound) b := by
  by_cases hempty : b.upper < bound
  · refine .of_wipeout (if_pos hempty) fun x hx hbound => ?_
    exact absurd (Int.le_trans hbound hx.2) (Int.not_le.mpr hempty)
  by_cases hkeep : bound ≤ b.lower
  · refine .of_unchanged h ((if_neg hempty).trans (if_pos hkeep)) fun x hx => ?_
    exact Int.le_trans hkeep hx.1
  · refine .of_changed (Int.not_lt.mp hempty) ((if_neg hempty).trans (if_neg hkeep)) (fun x => ?_)
      ⟨b.lower, ⟨Int.le_refl b.lower, h⟩, hkeep⟩ fun saved hback => hback.push rfl
    change bound ≤ x ∧ x ≤ b.upper ↔ (b.lower ≤ x ∧ x ≤ b.upper) ∧ bound ≤ x
    omega

theorem restricts_lowerUpper (h : b.Valid) (bound : Int) :
    checkpointed.Restricts restore Valid (.lowerUpper bound) b := by
  by_cases hempty : bound < b.lower
  · refine .of_wipeout (if_pos hempty) fun x hx hbound => ?_
    exact absurd (Int.le_trans hx.1 hbound) (Int.not_le.mpr hempty)
  by_cases hkeep : b.upper ≤ bound
  · refine .of_unchanged h ((if_neg hempty).trans (if_pos hkeep)) fun x hx => ?_
    exact Int.le_trans hx.2 hkeep
  · refine .of_changed (Int.not_lt.mp hempty) ((if_neg hempty).trans (if_neg hkeep)) (fun x => ?_)
      ⟨b.upper, ⟨h, Int.le_refl b.upper⟩, hkeep⟩ fun saved hback => hback.push rfl
    change b.lower ≤ x ∧ x ≤ bound ↔ (b.lower ≤ x ∧ x ≤ b.upper) ∧ x ≤ bound
    omega

theorem lawful : checkpointed.Lawful restore Valid where
  nonempty _ h := nonempty_between.mpr h
  mutate m b h := by
    cases m with
    | raiseLower bound => exact restricts_raiseLower h bound
    | lowerUpper bound => exact restricts_lowerUpper h bound
  mark b h := ⟨h, rfl, rfl⟩
  synchronise b target undone t h hundone hnonempty := by
    have hrun : Bounds.synchronise target b = .ok () (b.back undone t) := by
      rw [Bounds.synchronise, show b.trail.synchronise target = _ from hundone]
      rfl
    have hvalues : (b.back undone t).values = undone.foldl restore b.values :=
      (foldl_restore undone (b.lower, b.upper)).symm
    exact ⟨_, hrun, nonempty_between.mp (hnonempty.mono hvalues.ge), hvalues, rfl⟩
  synchronise_error b target fault h := by
    change b.trail.synchronise target = _ at h
    change Bounds.synchronise target b = _
    rw [Bounds.synchronise, h]

end Bounds

/-! ### Value sets -/

namespace Values

variable {d : Values} {capacity v : Nat} {saved : List (Set Nat × Trail Nat)}

/-- A restriction to or from a value. -/
inductive Mutation where
  | remove (value : Nat)
  | assign (value : Nat)
  deriving DecidableEq, Repr

namespace Mutation

def run : Mutation → Attempt Values Bool
  | remove value => Values.remove value
  | assign value => Values.assign value

def accepts : Mutation → Set Nat
  | remove value => {x | x ≠ value}
  | assign value => {x | x = value}

end Mutation

def values (d : Values) : Set Nat := {x | d.contains x = true}

/-- Value sets as checkpointed domains. -/
def checkpointed : Checkpointed Values Mutation Nat Nat where
  values := values
  trail := trail
  accepts := Mutation.accepts
  mutate := Mutation.run
  mark := mark
  synchronise := synchronise

/-- Taking an entry back puts its value in again, unless the universe does not hold it. -/
def restore (capacity : Nat) (values : Set Nat) (entry : Nat) : Set Nat :=
  {x | (x = entry ∧ entry < capacity) ∨ x ∈ values}

theorem foldl_insert (undone : List Nat) {s : SparseSet} (hs : s.Valid) :
    (undone.foldl SparseSet.insert s).capacity = s.capacity ∧
      {x | (undone.foldl SparseSet.insert s).contains x = true} =
        undone.foldl (restore s.capacity) {x | s.contains x = true} := by
  induction undone generalizing s with
  | nil => exact ⟨rfl, rfl⟩
  | cons v undone ih =>
      obtain ⟨hcapacity, hvalues⟩ := ih (hs.insert v)
      have hfirst : {x | (s.insert v).contains x = true} =
          restore s.capacity {x | s.contains x = true} v :=
        Set.ext fun x => SparseSet.contains_insert hs v x
      rw [SparseSet.capacity_insert] at hcapacity hvalues
      rw [List.foldl_cons, List.foldl_cons, ← hfirst]
      exact ⟨hcapacity, hvalues⟩

theorem leadsBack_drop (hmembers : d.members.Valid) (hv : d.contains v = true)
    (hback : Trail.LeadsBack (restore d.members.capacity) d.values d.trail saved) :
    Trail.LeadsBack (restore d.members.capacity) (d.drop v).values (d.drop v).trail saved := by
  refine hback.push (Set.ext fun x => ?_)
  have hlt : v < d.members.capacity := SparseSet.lt_capacity_of_contains hmembers hv
  have hdrop : x ∈ (d.drop v).values ↔ x ≠ v ∧ d.contains x = true := contains_drop hmembers v x
  change (x = v ∧ v < d.members.capacity) ∨ x ∈ (d.drop v).values ↔ d.contains x = true
  rw [hdrop]
  by_cases hx : x = v
  · subst hx
    exact iff_of_true (.inl ⟨rfl, hlt⟩) hv
  · simp [hx]

theorem capacity_drop (d : Values) (v : Nat) :
    (d.drop v).members.capacity = d.members.capacity :=
  SparseSet.capacity_erase d.members v

theorem capacity_foldl_drop (removed : List Nat) (d : Values) :
    (removed.foldl drop d).members.capacity = d.members.capacity := by
  induction removed generalizing d with
  | nil => rfl
  | cons v removed ih => exact (ih (d.drop v)).trans (capacity_drop d v)

/-- Dropping several values of a domain records every one of them. -/
theorem leadsBack_foldl_drop {removed : List Nat} (hnodup : removed.Nodup)
    (hmembers : d.members.Valid) (hcontains : ∀ x ∈ removed, d.contains x = true)
    (hback : Trail.LeadsBack (restore d.members.capacity) d.values d.trail saved) :
    Trail.LeadsBack (restore d.members.capacity) (removed.foldl drop d).values
      (removed.foldl drop d).trail saved := by
  induction removed generalizing d with
  | nil => exact hback
  | cons v removed ih =>
      obtain ⟨hv, hcontains⟩ := List.forall_mem_cons.mp hcontains
      obtain ⟨hnotMem, hnodup⟩ := List.nodup_cons.mp hnodup
      have hcapacity := capacity_drop d v
      rw [List.foldl_cons, ← hcapacity]
      refine ih hnodup (hmembers.erase v) (fun x hx => ?_) ?_
      · refine (contains_drop hmembers v x).mpr ⟨?_, hcontains x hx⟩
        rintro rfl
        exact hnotMem hx
      · rw [hcapacity]
        exact leadsBack_drop hmembers hv hback

/-- A domain over a universe. -/
structure Within (capacity : Nat) (d : Values) : Prop extends d.Valid where
  capacity_eq : d.members.capacity = capacity

theorem restricts_remove (hd : d.Within capacity) (v : Nat) :
    checkpointed.Restricts (restore capacity) (Within capacity) (.remove v) d := by
  obtain ⟨hvalid, rfl⟩ := hd
  have hrun := remove_eq d v
  have hwp := remove_wp hvalid v
  by_cases hv : d.contains v = false
  · rw [if_pos hv] at hrun
    refine .of_unchanged ⟨hvalid, rfl⟩ hrun ?_
    rintro x hx rfl
    exact Bool.false_ne_true (hv.symm.trans hx)
  rw [if_neg hv] at hrun
  rw [Bool.not_eq_false] at hv
  by_cases hone : d.size = 1
  · rw [if_pos hone] at hrun
    obtain ⟨-, -, hfixed⟩ := Attempt.of_wp_error hwp hrun
    exact .of_wipeout hrun fun x hx hne => hne ((hfixed x).mp hx)
  · rw [if_neg hone] at hrun
    obtain ⟨hvalid', hcontains⟩ := Attempt.of_wp_ok hwp hrun
    refine .of_changed ⟨hvalid', capacity_drop d v⟩ hrun
      (fun x => (hcontains x).trans and_comm) ⟨v, hv, fun hne => hne rfl⟩ fun saved hback => ?_
    exact leadsBack_drop hvalid.members hv hback

theorem restricts_assign (hd : d.Within capacity) (v : Nat) :
    checkpointed.Restricts (restore capacity) (Within capacity) (.assign v) d := by
  obtain ⟨hvalid, rfl⟩ := hd
  have hrun := assign_eq d v
  have hwp := assign_wp hvalid v
  by_cases hv : d.contains v = false
  · rw [if_pos hv] at hrun
    refine .of_wipeout hrun ?_
    rintro x hx rfl
    exact Bool.false_ne_true (hv.symm.trans hx)
  rw [if_neg hv] at hrun
  by_cases hone : d.size = 1
  · rw [if_pos hone] at hrun
    obtain ⟨-, -, hfixed⟩ := Attempt.of_wp_ok hwp hrun
    exact .of_unchanged ⟨hvalid, rfl⟩ hrun fun x hx => (hfixed x).mp hx
  · rw [if_neg hone] at hrun
    obtain ⟨hvalid', hv, hfixed⟩ := Attempt.of_wp_ok hwp hrun
    have hnodup := (SparseSet.nodup_toList hvalid.members).filter (· != v)
    have hcontains : ∀ x ∈ d.members.toList.filter (· != v), d.contains x = true := fun x hx =>
      (SparseSet.mem_toList hvalid.members).mp (List.mem_of_mem_filter hx)
    refine .of_changed ⟨hvalid', capacity_foldl_drop _ d⟩ hrun (fun x => (hfixed x).trans ?_) ?_
      fun saved hback => leadsBack_foldl_drop hnodup hvalid.members hcontains hback
    · exact (and_iff_right_of_imp fun hx => hx ▸ hv).symm
    · -- without another value, the domain would be fixed
      by_contra hnone
      push Not at hnone
      exact hone ((size_eq_one_iff hvalid).mpr ⟨v, hvalid.isFixedTo hnone⟩)

theorem lawful (capacity : Nat) : checkpointed.Lawful (restore capacity) (Within capacity) where
  nonempty _ hd := hd.nonempty
  mutate m d hd := by
    cases m with
    | remove v => exact restricts_remove hd v
    | assign v => exact restricts_assign hd v
  mark d hd := ⟨⟨⟨hd.members, hd.nonempty⟩, hd.capacity_eq⟩, rfl, rfl⟩
  synchronise d target undone t hd hundone hnonempty := by
    have hrun : Values.synchronise target d =
        .ok () { members := undone.foldl SparseSet.insert d.members, trail := t } := by
      rw [Values.synchronise, show d.trail.synchronise target = _ from hundone]
    obtain ⟨hvalid, -⟩ := valid_foldl_insert undone hd.members
    obtain ⟨hcapacity, hvalues⟩ := foldl_insert undone hd.members
    rw [hd.capacity_eq] at hcapacity hvalues
    have hleft := hnonempty.mono hvalues.ge
    exact ⟨_, hrun, ⟨⟨hvalid, hleft⟩, hcapacity⟩, hvalues, rfl⟩
  synchronise_error d target fault h := by
    change d.trail.synchronise target = _ at h
    change Values.synchronise target d = _
    rw [Values.synchronise, h]

theorem trail_make {values : List Nat} (h : make capacity values = .ok d) : d.trail = {} := by
  unfold make at h
  split at h
  next => cases h
  next =>
    split at h
    next => cases h
    next =>
      cases h
      rfl

end Values

/-! ### Runs -/

/-- Intervals and value sets are exact after every sequence of calls.  An interval even returns to
the state in which its checkpoint was made, whereas the values of a set may be enumerated in
another order. -/
theorem checkpointed_exact :
    (∀ {lower upper : Int} {b₀ b : Bounds} {saved : List Bounds},
      Bounds.make lower upper = .ok b₀ → Bounds.checkpointed.Run b₀ b saved →
        Bounds.checkpointed.Exact b saved ∧ b.lower ≤ b.upper ∧
          ∀ target (h : target < saved.length),
            Bounds.synchronise target b = .ok () saved[target]) ∧
    ∀ {capacity : Nat} {values : List Nat} {d₀ d : Values} {saved : List Values},
      Values.make capacity values = .ok d₀ → Values.checkpointed.Run d₀ d saved →
        Values.checkpointed.Exact d saved := by
  constructor
  · intro lower upper b₀ b saved hmake hrun
    obtain ⟨hvalid, htrail⟩ := Bounds.valid_make hmake
    have hkept := hrun.kept Bounds.lawful hvalid htrail
    refine ⟨hkept.exact Bounds.lawful, hkept.valid, fun target htarget => ?_⟩
    obtain ⟨b', hsync, hvalues, htrail, hkept'⟩ := hkept.restores Bounds.lawful htarget
    rwa [← Bounds.eq_of_values_eq hkept'.valid hvalues htrail]
  · intro capacity values d₀ d saved hmake hrun
    exact (Values.lawful _).exact ⟨Values.valid_make hmake, rfl⟩ (Values.trail_make hmake) hrun

/-- Two checkpoints in a row, a mutation without effect and a failing one lie between the first
checkpoint and the return to it. -/
theorem checkpointed_exact_nested :
    let b₀ : Bounds := { lower := 0, upper := 10, trail := {} }
    let b₁ := (Bounds.raiseLower 1).after b₀
    let b₂ := (Bounds.lowerUpper 8).after ((Bounds.raiseLower 5).after b₁.mark)
    let b := (Bounds.raiseLower 9).after ((Bounds.lowerUpper 8).after b₂.mark.mark)
    let d₀ : Values := { members := .full 5, trail := {} }
    let d₁ := (Values.remove 0).after d₀
    let d₂ := (Values.remove 0).after ((Values.remove 1).after d₁.mark)
    let d := (Values.remove 3).after ((Values.assign 3).after d₂.mark.mark)
    Bounds.make 0 10 = .ok b₀ ∧ Values.make 5 [0, 1, 2, 3, 4] = .ok d₀ ∧
      (b₁.lower, b₁.upper) = (1, 10) ∧ (b.lower, b.upper) = (5, 8) ∧
      Bounds.synchronise 0 b = .ok () b₁ ∧
      d₁.members.sorted = [1, 2, 3, 4] ∧ d.members.sorted = [3] ∧
      ∃ d', Values.synchronise 0 d = .ok () d' ∧ d'.values = d₁.values := by
  intro b₀ b₁ b₂ b d₀ d₁ d₂ d
  have hbounds : Bounds.make 0 10 = .ok b₀ := rfl
  have hb₁ : Bounds.checkpointed.Run b₀ b₁ [] := .mutate (Bounds.Mutation.raiseLower 1) .start
  have hb₂ : Bounds.checkpointed.Run b₀ b₂ [b₁] :=
    .mutate (Bounds.Mutation.lowerUpper 8) (.mutate (Bounds.Mutation.raiseLower 5) hb₁.mark)
  have hb : Bounds.checkpointed.Run b₀ b [b₁, b₂, b₂.mark] :=
    .mutate (Bounds.Mutation.raiseLower 9) (.mutate (Bounds.Mutation.lowerUpper 8) hb₂.mark.mark)
  have hvalues : Values.make 5 [0, 1, 2, 3, 4] = .ok d₀ := rfl
  have hd₁ : Values.checkpointed.Run d₀ d₁ [] := .mutate (Values.Mutation.remove 0) .start
  have hd₂ : Values.checkpointed.Run d₀ d₂ [d₁] :=
    .mutate (Values.Mutation.remove 0) (.mutate (Values.Mutation.remove 1) hd₁.mark)
  have hd : Values.checkpointed.Run d₀ d [d₁, d₂, d₂.mark] :=
    .mutate (Values.Mutation.remove 3) (.mutate (Values.Mutation.assign 3) hd₂.mark.mark)
  have hsorted : d₁.members.sorted = [1, 2, 3, 4] := by decide +kernel
  have hsorted' : d.members.sorted = [3] := by decide +kernel
  obtain ⟨-, -, hrestores⟩ := checkpointed_exact.1 hbounds hb
  clear_value d₁ d₂ d
  obtain ⟨d', hsync, hsame, -⟩ := (checkpointed_exact.2 hvalues hd).restores 0 (by simp)
  exact ⟨hbounds, hvalues, by decide, by decide, hrestores 0 (by simp), hsorted, hsorted',
    d', hsync, hsame⟩

end GraphInterval
