import GraphInterval.Proofs.Scalar.Double
import GraphInterval.Proofs.TiedHeap.Keys

/-!
# A run of operations on the priority map

Seen from outside, the tied keys, the binary heap and the entries that were
left in it are one finite map from keys to values.  A map of this kind is
specified by what every operation may answer and which map it leaves; only
which one of several least keys is removed is left open.  The heap starts as
the empty map and takes a step of the specification with every operation, so
all its answers are those of a finite map, and no operation fails.
-/

namespace GraphInterval

namespace TiedHeap

variable {α : Type} [Ranked α] {n : ℕ} {h h' : TiedHeap α} {k u : ℕ} {v w : α}

/-! ### The finite map -/

/-- The value of a key in the map. -/
def lookup (h : TiedHeap α) (key : ℕ) : Option α :=
  if h.contains key then some (h.value key) else none

theorem lookup_eq_some : h.lookup k = some w ↔ h.contains k = true ∧ h.value k = w := by
  rw [lookup]
  split
  next hk => simp [hk]
  next hk => simp [hk]

theorem lookup_eq_none : h.lookup k = none ↔ h.contains k = false := by
  rw [lookup]
  split
  next hk => simp [hk]
  next hk => simp [hk]

theorem lookup_of_contains (hk : h.contains k = true) : h.lookup k = some (h.value k) :=
  lookup_eq_some.mpr ⟨hk, rfl⟩

/-- Maps that agree on their keys and values are one finite map. -/
theorem lookup_congr (hcontains : h'.contains k = true ↔ h.contains k = true)
    (hvalue : h.contains k = true → h'.value k = h.value k) : h'.lookup k = h.lookup k := by
  cases hk : h.contains k with
  | true =>
      rw [lookup_of_contains hk, lookup_of_contains (hcontains.mpr hk), hvalue hk]
  | false =>
      have hk' : h'.contains k = false := by
        rw [Bool.eq_false_iff, ne_eq, hcontains, hk]
        exact Bool.false_ne_true
      rw [lookup_eq_none.mpr hk, lookup_eq_none.mpr hk']

/-! ### Operations and their answers -/

inductive Operation (α : Type) where
  | insertOrDecrease (key : ℕ) (value : α)
  | popMin
  | isEmpty
  | clear

inductive Answer where
  | changed (changed : Bool)
  | popped (key : Option ℕ)
  | empty (empty : Bool)
  | cleared
  deriving DecidableEq

namespace Operation

/-- The operation concerns a key below `n` and a value that compares with itself. -/
def Admissible (n : ℕ) : Operation α → Prop
  | insertOrDecrease key value => key < n ∧ value ≤ value
  | popMin | isEmpty | clear => True

/-- Performs one operation. -/
def perform (h : TiedHeap α) : Operation α → Except Fault (Answer × TiedHeap α)
  | insertOrDecrease key value => do
      let (changed, h) ← h.tryInsert key value
      return (.changed changed, h)
  | popMin => do
      let (key, h) ← h.tryPop
      return (.popped key, h)
  | isEmpty => return (.empty h.isEmpty, h)
  | clear => return (.cleared, h.clear)

/-- Performs operations one after the other. -/
def performAll (h : TiedHeap α) : List (Operation α) → Except Fault (List Answer × TiedHeap α)
  | [] => return ([], h)
  | operation :: operations => do
      let (answer, h) ← operation.perform h
      let (answers, h) ← performAll h operations
      return (answer :: answers, h)

/-- What a finite map answers to an operation, and the map afterwards. -/
inductive Step (m : ℕ → Option α) : Operation α → Answer → (ℕ → Option α) → Prop where
  | changes {u : ℕ} {v : α} : (∀ w, m u = some w → v < w) →
      Step m (insertOrDecrease u v) (.changed true) (Function.update m u (some v))
  | keeps {u : ℕ} {v w : α} : m u = some w → w ≤ v →
      Step m (insertOrDecrease u v) (.changed false) m
  | pops {u : ℕ} {v : α} : m u = some v → (∀ k w, m k = some w → v ≤ w) →
      Step m popMin (.popped (some u)) (Function.update m u none)
  | popsNothing : (∀ k, m k = none) → Step m popMin (.popped none) m
  | isEmpty {b : Bool} : (b = true ↔ ∀ k, m k = none) → Step m isEmpty (.empty b) m
  | clear : Step m clear .cleared fun _ => none

/-- The answers of a finite map to operations, and the map in the end. -/
inductive Steps :
    (ℕ → Option α) → List (Operation α) → List Answer → (ℕ → Option α) → Prop where
  | nil {m : ℕ → Option α} : Steps m [] [] m
  | cons {m m₁ m₂ : ℕ → Option α} {operation : Operation α} {operations : List (Operation α)}
      {answer : Answer} {answers : List Answer} : Step m operation answer m₁ →
      Steps m₁ operations answers m₂ → Steps m (operation :: operations) (answer :: answers) m₂

end Operation

/-! ### One operation -/

open Operation (Step Steps performAll)

variable [LawfulRanked α]

/-- An offered key gets its value if it is new or if the value is smaller. -/
theorem Offered.step {changed : Bool} (ho : Offered n h u v changed h') (hv : Valid n h)
    (hself : v ≤ v) :
    Step h.lookup (.insertOrDecrease u v) (.changed changed) h'.lookup := by
  by_cases hold : h.contains u = true ∧ h.value u ≤ v
  · obtain rfl : changed = false := by
      rw [Bool.eq_false_iff, ne_eq, ho.changed_iff, not_not]
      exact hold
    have hsame : h'.lookup = h.lookup := by
      funext k
      apply lookup_congr
      · rw [ho.contains_iff, or_iff_left_iff_imp]
        rintro rfl
        exact hold.1
      · intro _
        rw [ho.value_eq, if_neg (by simp)]
    rw [hsame]
    exact .keeps (lookup_of_contains hold.1) hold.2
  · obtain rfl : changed = true := ho.changed_iff.mpr hold
    have hupdate : h'.lookup = Function.update h.lookup u (some v) := by
      funext k
      by_cases hku : k = u
      · rw [hku, Function.update_self, lookup_eq_some, ho.contains_iff, ho.value_eq]
        exact ⟨.inr rfl, if_pos ⟨rfl, rfl⟩⟩
      · rw [Function.update_of_ne hku]
        apply lookup_congr
        · rw [ho.contains_iff, or_iff_left hku]
        · intro _
          rw [ho.value_eq, if_neg fun h => hku h.2]
    rw [hupdate]
    apply Step.changes
    intro w hw
    obtain ⟨hin, rfl⟩ := lookup_eq_some.mp hw
    exact Ranked.lt_of_not_le (hv.comparable u) hself fun hle => hold ⟨hin, hle⟩

omit [LawfulRanked α] in
/-- A least key is taken out of the map. -/
theorem Popped.step (hp : Popped n h u h') :
    Step h.lookup .popMin (.popped (some u)) h'.lookup := by
  have hupdate : h'.lookup = Function.update h.lookup u none := by
    funext k
    by_cases hku : k = u
    · rw [hku, Function.update_self, lookup_eq_none, Bool.eq_false_iff, ne_eq, hp.contains_iff]
      exact fun h => h.2 rfl
    · rw [Function.update_of_ne hku]
      apply lookup_congr
      · rw [hp.contains_iff, and_iff_left hku]
      · exact fun _ => hp.value_eq k
  rw [hupdate]
  apply Step.pops (lookup_of_contains hp.contained)
  intro k w hw
  obtain ⟨hin, rfl⟩ := lookup_eq_some.mp hw
  exact hp.least k hin

omit [LawfulRanked α] in
/-- The map counts its keys. -/
theorem Valid.isEmpty_iff (hv : Valid n h) : h.isEmpty = true ↔ ∀ k, h.lookup k = none := by
  rw [isEmpty, beq_iff_eq, hv.tallied.count_eq, Finset.card_eq_zero]
  constructor
  · intro hempty k
    rw [lookup_eq_none, Bool.eq_false_iff]
    intro hk
    have hmem := hv.indexed.mem_keys.mpr hk
    rw [hempty] at hmem
    exact absurd hmem (Finset.notMem_empty k)
  · intro hnone
    apply Finset.eq_empty_of_forall_notMem
    intro k hk
    have hin := hv.indexed.mem_keys.mp hk
    exact absurd ((lookup_eq_none.mp (hnone k)).symm.trans hin) Bool.false_ne_true

omit [LawfulRanked α] in
/-- A search for a key to hand out only drops entries. -/
theorem lookup_of_popMin_none (hs : Stored n h) (hrun : h.popMin = (none, h')) :
    h'.lookup = h.lookup := by
  rw [popMin] at hrun
  split at hrun
  next => cases hrun
  next =>
    have hframe := (iterate_discard_frame hs h.heap.size).2
    dsimp only at hrun
    split at hrun
    next =>
      cases hrun
      exact (congrArg lookup hframe :)
    next => cases hrun

/-- Taking a key never fails, and only the empty map has none. -/
theorem Valid.tryPop_step (hv : Valid n h) :
    ∃ key? h', h.tryPop = .ok (key?, h') ∧ Valid n h' ∧
      Step h.lookup .popMin (.popped key?) h'.lookup := by
  obtain ⟨u, h', hrun, hpopped⟩ | ⟨h', hrun, hvalid, hnone⟩ := popMin_spec hv
  · have hsome := hv.tallied.isEmpty_eq_false hv.indexed hpopped.contained
    have htry : h.tryPop = .ok (some u, h') := by
      rw [tryPop, hrun]
      simp [hsome]
    exact ⟨some u, h', htry, hpopped.valid, hpopped.step⟩
  · have htry : h.tryPop = .ok (none, h') := by
      rw [tryPop, hrun]
      simp
    have hstep : Step h.lookup .popMin (.popped none) h.lookup :=
      .popsNothing fun k => lookup_eq_none.mpr (hnone k)
    exact ⟨none, h', htry, hvalid, (lookup_of_popMin_none hv.stored hrun).symm ▸ hstep⟩

/-- Every operation is a step of the finite map. -/
theorem Operation.perform_step (hv : Valid n h) {operation : Operation α}
    (hop : operation.Admissible n) :
    ∃ answer h', operation.perform h = .ok (answer, h') ∧ Valid n h' ∧
      Step h.lookup operation answer h'.lookup := by
  cases operation with
  | insertOrDecrease u v =>
      obtain ⟨hu, hself⟩ := hop
      have hoffered := insertOrDecrease_spec hv hu hself
      have hrun : (insertOrDecrease u v).perform h =
          .ok (.changed (h.insertOrDecrease u v).1, (h.insertOrDecrease u v).2) := by
        rw [perform, tryInsert, if_pos (hv.indexed.present_size.symm ▸ hu)]
        rfl
      exact ⟨_, _, hrun, hoffered.valid, hoffered.step hv hself⟩
  | popMin =>
      obtain ⟨key?, h', hrun, hvalid, hstep⟩ := hv.tryPop_step
      have hperform : popMin.perform h = .ok (.popped key?, h') := by
        rw [perform, hrun]
        rfl
      exact ⟨_, h', hperform, hvalid, hstep⟩
  | isEmpty => exact ⟨_, h, rfl, hv, .isEmpty hv.isEmpty_iff⟩
  | clear =>
      obtain ⟨hvalid, hnone⟩ := clear_spec hv
      have hlookup : h.clear.lookup = fun _ => none := by
        funext k
        exact lookup_eq_none.mpr (hnone k)
      exact ⟨_, _, rfl, hvalid, hlookup ▸ .clear⟩

/-! ### A whole run -/

/-- From any state of the heap on, a run is one of the finite map that it stands for. -/
theorem Operation.performAll_steps (hv : Valid n h) (operations : List (Operation α))
    (hops : ∀ operation ∈ operations, operation.Admissible n) :
    ∃ answers h', performAll h operations = .ok (answers, h') ∧ Valid n h' ∧
      Steps h.lookup operations answers h'.lookup := by
  induction operations generalizing h with
  | nil => exact ⟨[], h, rfl, hv, .nil⟩
  | cons operation operations ih =>
      obtain ⟨hop, hops⟩ := List.forall_mem_cons.mp hops
      obtain ⟨answer, h₁, hrun, hv₁, hstep⟩ := perform_step hv hop
      obtain ⟨answers, h₂, hruns, hv₂, hsteps⟩ := ih hv₁ hops
      have hall : performAll h (operation :: operations) = .ok (answer :: answers, h₂) := by
        rw [performAll, hrun]
        dsimp only [bind, Except.bind]
        rw [hruns]
        rfl
      exact ⟨answer :: answers, h₂, hall, hv₂, .cons hstep hsteps⟩

/-- Operations on a new heap succeed and answer what a finite map does, which is empty at first. -/
theorem performAll_refines (n : ℕ) (operations : List (Operation α))
    (hops : ∀ operation ∈ operations, operation.Admissible n) :
    ∃ answers h, performAll (empty n) operations = .ok (answers, h) ∧
      Steps (fun _ => none) operations answers h.lookup := by
  have hv : Valid n (empty n : TiedHeap α) := valid_empty n
  have hnone : (empty n : TiedHeap α).lookup = fun _ => none := funext (hv.isEmpty_iff.mp rfl)
  obtain ⟨answers, h, hrun, -, hsteps⟩ := Operation.performAll_steps hv operations hops
  exact ⟨answers, h, hrun, hnone ▸ hsteps⟩

/-- Two tied keys are taken; one of them returns with a larger value while its entry is left in the
binary heap, and comes after the key that was not tied. -/
theorem performAll_refines_returned :
    let one : Double := ⟨0x3ff0000000000000⟩
    let two : Double := ⟨0x4000000000000000⟩
    let three : Double := ⟨0x4008000000000000⟩
    let operations := [.insertOrDecrease 0 one, .insertOrDecrease 1 one, .insertOrDecrease 2 two,
      .popMin, .popMin, .insertOrDecrease 0 three, .insertOrDecrease 2 three, .popMin, .isEmpty,
      .popMin, .isEmpty]
    (∀ operation ∈ operations, operation.Admissible 3) ∧
      ∃ answers h, performAll (empty 3) operations = .ok (answers, h) ∧
        Steps (fun _ => none) operations answers h.lookup ∧
        answers = [.changed true, .changed true, .changed true, .popped (some 1), .popped (some 0),
          .changed true, .changed false, .popped (some 2), .empty false, .popped (some 0),
          .empty true] := by
  intro one two three operations
  have hops : ∀ operation ∈ operations, operation.Admissible 3 := by
    have hself : one ≤ one ∧ two ≤ two ∧ three ≤ three := by decide +kernel
    simp [operations, Operation.Admissible, hself]
  obtain ⟨answers, h, hrun, hsteps⟩ := performAll_refines 3 operations hops
  have hanswers : (performAll (empty 3) operations).map Prod.fst = .ok
      [.changed true, .changed true, .changed true, .popped (some 1), .popped (some 0),
        .changed true, .changed false, .popped (some 2), .empty false, .popped (some 0),
        .empty true] := by decide +kernel
  rw [hrun] at hanswers
  exact ⟨hops, answers, h, hrun, hsteps, Except.ok.inj hanswers⟩

end TiedHeap

end GraphInterval
