import GraphInterval.Proofs.Run
import GraphInterval.Proofs.Trail

/-!
# The segments of a trail

Nothing is written down about the segments of a trail but their borders.  The
journal of a history knows more: the time at which every entry was pushed, and
what was there when every checkpoint was made.  Returning to a checkpoint hands
back the entries that were pushed after its time and leaves the ones of its
time, however many checkpoints lie in between and however often the trail grew
again over a shorter one.
-/

namespace GraphInterval

namespace Trail

variable {α : Type} {t : Trail α} {target : ℕ}

/-! ### Operations and their answers -/

inductive Operation (α : Type) where
  | push (entry : α)
  | mark
  | synchronise (target : ℕ)

/-- What is handed back by an operation and what is there afterwards. -/
structure Answer (α : Type) where
  undone : List α
  entries : List α
  checkpoint : ℕ
  deriving DecidableEq

/-- A trail with its answer after some entries were handed back. -/
def observe (undone : List α) (t : Trail α) : Answer α × Trail α :=
  (⟨undone, t.entries.toList, t.checkpoint⟩, t)

/-- Performs one operation. -/
def perform (t : Trail α) : Operation α → Except Fault (Answer α × Trail α)
  | .push entry => return observe [] (t.push entry)
  | .mark => return observe [] t.mark
  | .synchronise target => do
      let (undone, t) ← t.synchronise target
      return observe undone t

/-- No operation returns to a checkpoint that does not exist at that time. -/
def Allowed : ℕ → List (Operation α) → Prop
  | _, [] => True
  | checkpoint, .push _ :: operations => Allowed checkpoint operations
  | checkpoint, .mark :: operations => Allowed (checkpoint + 1) operations
  | checkpoint, .synchronise target :: operations =>
      target < checkpoint ∧ Allowed target operations

/-! ### Journals -/

/-- A point in time, and the entries that were there, each with the time of its push. -/
structure Moment (α : Type) where
  time : ℕ := 0
  entries : List (ℕ × α) := []

/-- The entries without their times. -/
def Moment.values (m : Moment α) : List α := m.entries.map Prod.snd

/-- The entries pushed at a time or later, newest first. -/
def Moment.since (m : Moment α) (time : ℕ) : List α :=
  ((m.entries.filter fun e => time ≤ e.1).map Prod.snd).reverse

/-- The moments at which the checkpoints were made, oldest first, and the present one. -/
structure Journal (α : Type) where
  made : List (Moment α) := []
  now : Moment α := {}

/-- What is answered to an operation, and the journal afterwards.  Every operation takes its time. -/
inductive Journal.Step (j : Journal α) : Operation α → Answer α → Journal α → Prop where
  | push {entry : α} {now : Moment α} :
      now = ⟨j.now.time + 1, j.now.entries ++ [(j.now.time, entry)]⟩ →
      Step j (.push entry) ⟨[], now.values, j.made.length⟩ ⟨j.made, now⟩
  | mark {made : List (Moment α)} : made = j.made ++ [j.now] →
      Step j .mark ⟨[], j.now.values, made.length⟩ ⟨made, ⟨j.now.time + 1, j.now.entries⟩⟩
  | synchronise {target : ℕ} {m : Moment α} : j.made[target]? = some m →
      Step j (.synchronise target) ⟨j.now.since m.time, m.values, target⟩
        ⟨j.made.take target, ⟨j.now.time + 1, m.entries⟩⟩

/-- Since the first of two moments, entries were only added, and later than the first one. -/
def Moment.Before (m m' : Moment α) : Prop :=
  m.time ≤ m'.time ∧ ∃ later, m'.entries = m.entries ++ later ∧ ∀ e ∈ later, m.time ≤ e.1

/-- The entries are in the order of their pushes, which are past. -/
structure Moment.Ordered (m : Moment α) : Prop where
  increasing : m.entries.Pairwise fun e f => e.1 < f.1
  past : ∀ e ∈ m.entries, e.1 < m.time

/-- The checkpoints that are left were made one after the other, on what was there before. -/
structure Journal.Ordered (j : Journal α) : Prop where
  before : (j.made ++ [j.now]).Pairwise Moment.Before
  ordered : ∀ m ∈ j.made ++ [j.now], m.Ordered

/-- A trail holds the entries of the present and the borders of the segments. -/
structure Represents (j : Journal α) (t : Trail α) : Prop where
  journal : j.Ordered
  entries_eq : t.entries.toList = j.now.values
  delimiters_eq : t.delimiters.toList = j.made.map fun m => m.entries.length

variable {j : Journal α} {m m' : Moment α} {entry : α}

namespace Moment

/-- What came after a moment is exactly what was pushed at its time or later. -/
theorem Before.since_eq (h : m.Before m') (hm : m.Ordered) :
    m'.since m.time = (m'.values.drop m.entries.length).reverse := by
  obtain ⟨-, later, heq, hlater⟩ := h
  have hearlier : m.entries.filter (fun e => m.time ≤ e.1) = [] := by
    rw [List.filter_eq_nil_iff]
    intro e he
    have hpast := hm.past e he
    simpa using hpast
  have hrest : later.filter (fun e => m.time ≤ e.1) = later := by
    rw [List.filter_eq_self]
    intro e he
    simpa using hlater e he
  rw [since, values, heq, List.filter_append, hearlier, hrest, List.nil_append, List.map_append,
    List.drop_left' (List.length_map _)]

theorem Before.values_eq (h : m.Before m') : m.values = m'.values.take m.entries.length := by
  obtain ⟨-, later, heq, -⟩ := h
  rw [values, values, heq, List.map_append, List.take_left' (List.length_map _)]

theorem Before.length_le (h : m.Before m') : m.entries.length ≤ m'.entries.length := by
  obtain ⟨-, later, heq, -⟩ := h
  rw [heq, List.length_append]
  exact Nat.le_add_right _ _

/-- Nothing changes while time passes. -/
theorem Before.wait {time : ℕ} (h : m.Before m') (htime : m'.time ≤ time) :
    m.Before ⟨time, m'.entries⟩ :=
  ⟨Nat.le_trans h.1 htime, h.2⟩

theorem Ordered.wait {time : ℕ} (h : m.Ordered) (htime : m.time ≤ time) :
    Ordered ⟨time, m.entries⟩ :=
  ⟨h.increasing, fun e he => Nat.lt_of_lt_of_le (h.past e he) htime⟩

theorem Before.push (h : m.Before m') (entry : α) :
    m.Before ⟨m'.time + 1, m'.entries ++ [(m'.time, entry)]⟩ := by
  obtain ⟨htime, later, heq, hlater⟩ := h
  refine ⟨Nat.le_succ_of_le htime, later ++ [(m'.time, entry)], ?_, fun e he => ?_⟩
  · rw [heq, List.append_assoc]
  · obtain he | he := List.mem_append.mp he
    · exact hlater e he
    · rw [List.mem_singleton.mp he]
      exact htime

theorem Ordered.push (h : m.Ordered) (entry : α) :
    Ordered ⟨m.time + 1, m.entries ++ [(m.time, entry)]⟩ := by
  constructor
  · refine List.pairwise_append.mpr ⟨h.increasing, List.pairwise_singleton _ _, ?_⟩
    intro e he f hf
    rw [List.mem_singleton.mp hf]
    exact h.past e he
  · intro e he
    obtain he | he := List.mem_append.mp he
    · exact Nat.lt_succ_of_lt (h.past e he)
    · rw [List.mem_singleton.mp he]
      exact Nat.lt_succ_self _

end Moment

namespace Journal.Ordered

theorem start : Journal.Ordered ({} : Journal α) := by
  refine ⟨List.pairwise_singleton _ _, fun m hm => ?_⟩
  obtain rfl : m = {} := by simpa using hm
  exact ⟨List.Pairwise.nil, by simp⟩

/-- The present is replaced by a moment that comes after the same checkpoints. -/
theorem replace (h : j.Ordered) (hbefore : ∀ m ∈ j.made, m.Before j.now → m.Before m')
    (hm' : m'.Ordered) : Journal.Ordered ⟨j.made, m'⟩ := by
  obtain ⟨hmade, -, hnow⟩ := List.pairwise_append.mp h.before
  constructor
  · refine List.pairwise_append.mpr ⟨hmade, List.pairwise_singleton _ _, fun m hm f hf => ?_⟩
    rw [List.mem_singleton.mp hf]
    exact hbefore m hm (hnow m hm j.now (List.mem_singleton_self _))
  · intro m hm
    obtain hm | hm := List.mem_append.mp hm
    · exact h.ordered m (List.mem_append_left _ hm)
    · exact List.mem_singleton.mp hm ▸ hm'

theorem now_ordered (h : j.Ordered) : j.now.Ordered :=
  h.ordered j.now (List.mem_append_right _ (List.mem_singleton_self _))

theorem before_now (h : j.Ordered) {m : Moment α} (hm : m ∈ j.made) : m.Before j.now :=
  (List.pairwise_append.mp h.before).2.2 m hm j.now (List.mem_singleton_self _)

theorem push (h : j.Ordered) (entry : α) :
    Journal.Ordered ⟨j.made, ⟨j.now.time + 1, j.now.entries ++ [(j.now.time, entry)]⟩⟩ :=
  h.replace (fun _ _ hm => hm.push entry) (h.now_ordered.push entry)

theorem mark (h : j.Ordered) :
    Journal.Ordered ⟨j.made ++ [j.now], ⟨j.now.time + 1, j.now.entries⟩⟩ := by
  have hnow : j.now.Before ⟨j.now.time + 1, j.now.entries⟩ :=
    ⟨Nat.le_succ _, [], (List.append_nil _).symm, by simp⟩
  constructor
  · refine List.pairwise_append.mpr ⟨h.before, List.pairwise_singleton _ _, fun m hm f hf => ?_⟩
    rw [List.mem_singleton.mp hf]
    obtain hm | hm := List.mem_append.mp hm
    · exact (h.before_now hm).wait (Nat.le_succ _)
    · exact List.mem_singleton.mp hm ▸ hnow
  · intro m hm
    obtain hm | hm := List.mem_append.mp hm
    · exact h.ordered m hm
    · exact List.mem_singleton.mp hm ▸ h.now_ordered.wait (Nat.le_succ _)

theorem synchronise (h : j.Ordered) (hm : j.made[target]? = some m) :
    Journal.Ordered ⟨j.made.take target, ⟨j.now.time + 1, m.entries⟩⟩ := by
  obtain ⟨htarget, rfl⟩ := List.getElem?_eq_some_iff.mp hm
  have hmade := (List.pairwise_append.mp h.before).1
  have hmem := List.getElem_mem htarget
  -- the checkpoints that are left come before the one that is returned to
  have hshort : Journal.Ordered ⟨j.made.take target, j.made[target]⟩ := by
    have hinit : j.made.take target ++ [j.made[target]] <+: j.made := by
      rw [List.take_append_getElem htarget]
      exact List.take_prefix _ _
    refine ⟨hmade.sublist hinit.sublist, fun m hm => h.ordered m ?_⟩
    exact List.mem_append_left _ (hinit.subset hm)
  have htime : j.made[target].time ≤ j.now.time + 1 := Nat.le_succ_of_le (h.before_now hmem).1
  exact hshort.replace (fun _ _ hbefore => hbefore.wait htime) (hshort.now_ordered.wait htime)

end Journal.Ordered

/-! ### One operation -/

namespace Represents

theorem checkpoint_eq (h : Represents j t) : t.checkpoint = j.made.length := by
  rw [checkpoint, ← Array.length_toList, h.delimiters_eq, List.length_map]

theorem size_entries (h : Represents j t) : t.entries.size = j.now.entries.length := by
  rw [← Array.length_toList, h.entries_eq, Moment.values, List.length_map]

theorem observe_eq (h : Represents j t) (undone : List α) :
    observe undone t = (⟨undone, j.now.values, j.made.length⟩, t) := by
  rw [observe, h.entries_eq, h.checkpoint_eq]

/-- The borders of the segments are in order, and inside of the trail. -/
theorem delimiters (h : Represents j t) :
    t.delimiters.toList.Pairwise (· ≤ ·) ∧ ∀ d ∈ t.delimiters.toList, d ≤ t.entries.size := by
  rw [h.delimiters_eq, h.size_entries]
  constructor
  · rw [List.pairwise_map]
    exact (List.pairwise_append.mp h.journal.before).1.imp Moment.Before.length_le
  · intro d hd
    obtain ⟨m, hm, rfl⟩ := List.mem_map.mp hd
    exact (h.journal.before_now hm).length_le

theorem push (h : Represents j t) (entry : α) :
    Represents ⟨j.made, ⟨j.now.time + 1, j.now.entries ++ [(j.now.time, entry)]⟩⟩
      (t.push entry) := by
  refine ⟨h.journal.push entry, ?_, h.delimiters_eq⟩
  rw [Trail.push, Array.toList_push, h.entries_eq, Moment.values, Moment.values, List.map_append]
  rfl

theorem mark (h : Represents j t) :
    Represents ⟨j.made ++ [j.now], ⟨j.now.time + 1, j.now.entries⟩⟩ t.mark := by
  refine ⟨h.journal.mark, h.entries_eq, ?_⟩
  rw [toList_delimiters_mark, h.delimiters_eq, h.size_entries, List.map_append]
  rfl

/-- Returning to a checkpoint hands back what was pushed since, and leaves what was there. -/
theorem synchronise (h : Represents j t) (hm : j.made[target]? = some m) :
    ∃ t', t.synchronise target = .ok (j.now.since m.time, t') ∧
      Represents ⟨j.made.take target, ⟨j.now.time + 1, m.entries⟩⟩ t' := by
  obtain ⟨htarget, rfl⟩ := List.getElem?_eq_some_iff.mp hm
  have hmem := List.getElem_mem htarget
  have hbefore := h.journal.before_now hmem
  have hlength : t.delimiters.getD target 0 = j.made[target].entries.length := by
    rw [Array.getD_eq_getD_getElem?, ← Array.getElem?_toList, h.delimiters_eq, List.getElem?_map,
      hm]
    rfl
  let t' : Trail α :=
    { entries := t.entries.take j.made[target].entries.length
      delimiters := t.delimiters.take target }
  refine ⟨t', ?_, h.journal.synchronise hm, ?_, ?_⟩
  · rw [Trail.synchronise, if_pos (h.checkpoint_eq.symm ▸ htarget), hlength, h.entries_eq,
      hbefore.since_eq (h.journal.ordered _ (List.mem_append_left _ hmem))]
  · have htake : t'.entries.toList = t.entries.toList.take j.made[target].entries.length := by
      simp [t']
    rw [htake, h.entries_eq]
    exact hbefore.values_eq.symm
  · have htake : t'.delimiters.toList = t.delimiters.toList.take target := by simp [t']
    rw [htake, h.delimiters_eq, List.map_take]

/-- An operation that is allowed succeeds and is answered by the journal. -/
theorem perform (h : Represents j t) {operation : Operation α} {operations : List (Operation α)}
    (hallowed : Allowed j.made.length (operation :: operations)) :
    ∃ answer t' j', t.perform operation = .ok (answer, t') ∧ j.Step operation answer j' ∧
      Represents j' t' ∧ Allowed j'.made.length operations := by
  cases operation with
  | push entry =>
      have h' := h.push entry
      exact ⟨_, _, _, congrArg Except.ok (h'.observe_eq []), .push rfl, h', hallowed⟩
  | mark =>
      have h' := h.mark
      refine ⟨_, _, _, congrArg Except.ok (h'.observe_eq []), .mark rfl, h', ?_⟩
      rw [List.length_append]
      exact hallowed
  | synchronise target =>
      obtain ⟨htarget, hallowed⟩ := hallowed
      obtain ⟨t', hsync, h'⟩ := h.synchronise (List.getElem?_eq_getElem htarget)
      have hlength : (j.made.take target).length = target :=
        List.length_take_of_le (Nat.le_of_lt htarget)
      refine ⟨_, t', _, ?_, .synchronise (List.getElem?_eq_getElem htarget), h', ?_⟩
      · rw [Trail.perform, hsync]
        refine (congrArg Except.ok (h'.observe_eq _)).trans ?_
        rw [hlength]
        rfl
      · rw [hlength]
        exact hallowed

end Represents

/-! ### A history -/

theorem represents_empty : Represents ({} : Journal α) empty :=
  ⟨.start, rfl, rfl⟩

/-- A history that returns only to checkpoints that exist succeeds, and it is answered by its
journal.  In the end, as after every part of the history, the trail holds the entries that were not
taken back, in the order in which they were pushed, and the borders of its segments are in order
and inside of it. -/
theorem performEach_segments (operations : List (Operation α)) (hallowed : Allowed 0 operations) :
    ∃ answers t j, performEach perform empty operations = .ok (answers, t) ∧
      Traces Journal.Step {} operations answers j ∧
      t.checkpoint = j.made.length ∧ t.entries.toList = j.now.values ∧
      j.now.entries.Pairwise (fun e f => e.1 < f.1) ∧
      t.delimiters.toList.Pairwise (· ≤ ·) ∧ ∀ d ∈ t.delimiters.toList, d ≤ t.entries.size := by
  obtain ⟨answers, t, j, hrun, hsteps, h⟩ := performEach_traces_of_allowed Journal.Step Represents
    (A := fun j operations => Allowed j.made.length operations)
    (fun h hallowed => h.perform hallowed) represents_empty operations hallowed
  exact ⟨answers, t, j, hrun, hsteps, h.checkpoint_eq, h.entries_eq,
    h.journal.now_ordered.increasing, h.delimiters⟩

/-- Two checkpoints are discarded at once, one of an empty segment, and the trail grows again over a
shorter one. -/
theorem performEach_segments_regrown :
    let operations : List (Operation ℕ) := [.push 0, .mark, .push 1, .mark, .mark, .push 2,
      .synchronise 1, .push 3, .mark, .push 4, .synchronise 0]
    Allowed 0 operations ∧
      ∃ answers t j, performEach perform empty operations = .ok (answers, t) ∧
        Traces Journal.Step {} operations answers j ∧ t.entries.toList = j.now.values ∧
        answers.map Answer.undone = [[], [], [], [], [], [], [2], [], [], [], [4, 3, 1]] ∧
        answers.getLast? = some ⟨[4, 3, 1], [0], 0⟩ := by
  intro operations
  have hallowed : Allowed 0 operations := by simp [operations, Allowed]
  obtain ⟨answers, t, j, hrun, hsteps, -, hentries, -⟩ := performEach_segments operations hallowed
  have hanswers : (performEach perform empty operations).map Prod.fst =
      .ok [⟨[], [0], 0⟩, ⟨[], [0], 1⟩, ⟨[], [0, 1], 1⟩, ⟨[], [0, 1], 2⟩, ⟨[], [0, 1], 3⟩,
        ⟨[], [0, 1, 2], 3⟩, ⟨[2], [0, 1], 1⟩, ⟨[], [0, 1, 3], 1⟩, ⟨[], [0, 1, 3], 2⟩,
        ⟨[], [0, 1, 3, 4], 2⟩, ⟨[4, 3, 1], [0], 0⟩] := by decide
  rw [hrun] at hanswers
  obtain rfl := Except.ok.inj hanswers
  exact ⟨hallowed, _, t, j, hrun, hsteps, hentries, rfl, rfl⟩

end Trail

end GraphInterval
