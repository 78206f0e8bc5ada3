import GraphInterval.Proofs.Partition
import GraphInterval.Proofs.Run
import Mathlib.Logic.Relation

/-!
# The partition that a history generates

Seen from outside, pointers and ranks are an equivalence relation in which a
representative of every class is chosen.  The relation is generated by the
pairs that were united since all elements were separated the last time.  A
look-up answers the representative and changes neither the relation nor a
representative, however many pointers it changes on its way, and it ends
without any bound on its length.
-/

namespace GraphInterval

namespace Partition

variable {n : ℕ} {p : Partition} {united : List (ℕ × ℕ)} {a b x y : ℕ}

/-! ### Looking up -/

/-- The loop that climbs to a representative and halves the path on its way ends there. -/
theorem find_mem_eval (hp : Valid n p) (hx : x < n) :
    ((p.find x).2, (p.find x).1) ∈ StateTransition.eval halve (p, x) := by
  obtain ⟨hroot, -, hkept⟩ := find_spec hp hx
  have hend : (p.find x).2.parent (p.find x).1 = (p.find x).1 :=
    ((hkept _ _).mpr (Leads.stop hroot.isEnd)).isEnd
  have hfinished : halve ((p.find x).2, (p.find x).1) = none := by
    simp only [halve, hend, if_true]
  exact iterate_mem_eval hfinished

theorem find_lt (hp : Valid n p) (hx : x < n) : (p.find x).1 < n :=
  hp.leads_lt (find_spec hp hx).1 hx

/-- The representative of a class belongs to it. -/
theorem same_find_self (hp : Valid n p) (hx : x < n) : Same p x (p.find x).1 := by
  have hroot := (find_spec hp hx).1
  exact ⟨_, hroot, Leads.stop hroot.isEnd⟩

/-- Elements of one class have the same representative, and others do not. -/
theorem find_eq_find_iff (hp : Valid n p) (ha : a < n) (hb : b < n) :
    (p.find a).1 = (p.find b).1 ↔ Same p a b := by
  have hrootA := (find_spec hp ha).1
  have hrootB := (find_spec hp hb).1
  constructor
  · intro heq
    exact ⟨_, hrootA, heq ▸ hrootB⟩
  · intro hsame
    obtain ⟨r, har, hbr⟩ := hsame
    calc
      (p.find a).1 = r := hrootA.unique har
      _ = (p.find b).1 := hbr.unique hrootB

/-- A look-up leaves every representative where it is. -/
theorem find_find (hp : Valid n p) (hx : x < n) (hy : y < n) :
    ((p.find x).2.find y).1 = (p.find y).1 := by
  obtain ⟨-, hvalid, hkept⟩ := find_spec hp hx
  have hroot := (find_spec hvalid hy).1
  exact ((hkept y _).mp hroot).unique (find_spec hp hy).1

/-! ### The generated relation -/

/-- The smallest equivalence relation in which some pairs are related. -/
def Related (united : List (ℕ × ℕ)) : ℕ → ℕ → Prop :=
  Relation.EqvGen fun a b => (a, b) ∈ united

theorem related_of_mem (h : (a, b) ∈ united) : Related united a b := .rel a b h

/-- Further pairs keep related elements related. -/
theorem Related.cons (h : Related united x y) (pair : ℕ × ℕ) : Related (pair :: united) x y :=
  Relation.EqvGen.mono (fun _ _ hmem => List.mem_cons_of_mem pair hmem) _ _ h

/-- Nothing smaller than an equivalence relation is generated by its own pairs. -/
theorem same_of_related (hp : Valid n p) (hpairs : ∀ a b, (a, b) ∈ united → Same p a b)
    (h : Related united x y) : Same p x y := by
  induction h with
  | rel a b hmem => exact hpairs a b hmem
  | refl a => exact Same.refl hp a
  | symm a b _ ih => exact ih.symm
  | trans a b c _ _ ihab ihbc => exact ihab.trans ihbc

/-- The classes are those that the pairs generate. -/
structure Generated (n : ℕ) (united : List (ℕ × ℕ)) (p : Partition) : Prop where
  valid : Valid n p
  same_iff : ∀ x y, Same p x y ↔ Related united x y

theorem generated_discrete (n : ℕ) : Generated n [] (discrete n) := by
  have hvalid := valid_discrete n
  constructor
  · exact hvalid
  · intro x y
    constructor
    · intro hsame
      rw [same_discrete.mp hsame]
      exact .refl y
    · exact same_of_related hvalid fun a b hmem => absurd hmem List.not_mem_nil

theorem Generated.find (h : Generated n united p) (hx : x < n) :
    Generated n united (p.find x).2 := by
  constructor
  · exact (find_spec h.valid hx).2.1
  · intro y z
    rw [same_find h.valid hx]
    exact h.same_iff y z

/-- Uniting two elements adds their pair to the generating ones. -/
theorem Generated.union (h : Generated n united p) (ha : a < n) (hb : b < n) :
    Generated n ((a, b) :: united) (p.union a b).2 := by
  obtain ⟨-, hvalid, hclasses⟩ := union_spec h.valid ha hb
  have hnew : Related ((a, b) :: united) a b := related_of_mem List.mem_cons_self
  have hold : ∀ {x y}, Same p x y → Related ((a, b) :: united) x y := fun hsame =>
    ((h.same_iff _ _).mp hsame).cons (a, b)
  constructor
  · exact hvalid
  · intro x y
    constructor
    · intro hsame
      obtain hxy | ⟨hxa, hby⟩ | ⟨hxb, hay⟩ := (hclasses x y).mp hsame
      · exact hold hxy
      · exact ((hold hxa).trans _ _ _ hnew).trans _ _ _ (hold hby)
      · exact ((hold hxb).trans _ _ _ (hnew.symm _ _)).trans _ _ _ (hold hay)
    · apply same_of_related hvalid
      intro c d hmem
      obtain heq | hmem := List.mem_cons.mp hmem
      · obtain ⟨rfl, rfl⟩ := Prod.mk.inj heq
        exact (hclasses c d).mpr (.inr (.inl ⟨Same.refl h.valid c, Same.refl h.valid d⟩))
      · exact (hclasses c d).mpr (.inl ((h.same_iff c d).mpr (related_of_mem hmem)))

theorem Generated.reset (h : Generated n united p) : Generated n [] p.reset := by
  have hsize : p.size = n := h.valid.size_eq
  rw [Partition.reset, hsize]
  exact generated_discrete n

/-! ### Operations and their answers -/

inductive Operation where
  | find (x : ℕ)
  | union (a b : ℕ)
  | reset

inductive Answer where
  | representative (root : ℕ)
  | merged (merged : Bool)
  | separated
  deriving DecidableEq

/-- The operation concerns elements of the partition. -/
def Operation.Inside (n : ℕ) : Operation → Prop
  | find x => x < n
  | union a b => a < n ∧ b < n
  | reset => True

/-- Performs one operation. -/
def perform (p : Partition) : Operation → Except Fault (Answer × Partition)
  | .find x => do
      let (root, p) ← p.tryFind x
      return (.representative root, p)
  | .union a b => do
      let (merged, p) ← p.tryUnion a b
      return (.merged merged, p)
  | .reset => return (.separated, p.reset)

/-- The pairs that were united since the last separation, and the representatives. -/
structure Classes where
  united : List (ℕ × ℕ)
  representative : ℕ → ℕ

/-- In every class of the generated relation, one element is chosen. -/
structure Classes.Chosen (n : ℕ) (c : Classes) : Prop where
  lt : ∀ x < n, c.representative x < n
  related : ∀ x < n, Related c.united x (c.representative x)
  eq_iff : ∀ a < n, ∀ b < n,
    (c.representative a = c.representative b ↔ Related c.united a b)

/-- What is answered to an operation, and the classes afterwards. -/
inductive Classes.Step (n : ℕ) (c : Classes) : Operation → Answer → Classes → Prop where
  | find {x : ℕ} : Step n c (.find x) (.representative (c.representative x)) c
  | union {a b : ℕ} {merged : Bool} {representative : ℕ → ℕ} :
      (merged = true ↔ ¬ Related c.united a b) →
      Chosen n ⟨(a, b) :: c.united, representative⟩ →
      Step n c (.union a b) (.merged merged) ⟨(a, b) :: c.united, representative⟩
  | reset {representative : ℕ → ℕ} : Chosen n ⟨[], representative⟩ →
      Step n c .reset .separated ⟨[], representative⟩

/-! ### One operation -/

/-- A partition stands for its classes. -/
structure Represents (n : ℕ) (c : Classes) (p : Partition) : Prop where
  generated : Generated n c.united p
  find_eq : ∀ x < n, (p.find x).1 = c.representative x

/-- The classes of a partition that is generated by some pairs. -/
theorem Generated.represents (h : Generated n united p) :
    Represents n ⟨united, fun x => (p.find x).1⟩ p :=
  ⟨h, fun _ _ => rfl⟩

theorem Represents.chosen {c : Classes} (h : Represents n c p) : c.Chosen n := by
  have hvalid := h.generated.valid
  constructor
  · intro x hx
    rw [← h.find_eq x hx]
    exact find_lt hvalid hx
  · intro x hx
    rw [← h.find_eq x hx, ← h.generated.same_iff]
    exact same_find_self hvalid hx
  · intro a ha b hb
    rw [← h.find_eq a ha, ← h.find_eq b hb, ← h.generated.same_iff]
    exact find_eq_find_iff hvalid ha hb

theorem Represents.find {c : Classes} (h : Represents n c p) (hx : x < n) :
    Represents n c (p.find x).2 := by
  constructor
  · exact h.generated.find hx
  · intro y hy
    rw [find_find h.generated.valid hx hy]
    exact h.find_eq y hy

/-- An operation on elements of the partition succeeds and is answered by the classes. -/
theorem Represents.perform {c : Classes} (h : Represents n c p) {operation : Operation}
    (hop : operation.Inside n) :
    ∃ answer p' c', p.perform operation = .ok (answer, p') ∧ c.Step n operation answer c' ∧
      Represents n c' p' := by
  have hsize : p.size = n := h.generated.valid.size_eq
  cases operation with
  | find x =>
      have hx : x < n := hop
      have hrun : p.perform (.find x) =
          .ok (.representative (c.representative x), (p.find x).2) := by
        rw [Partition.perform, tryFind, hsize, if_pos hx, ← h.find_eq x hx]
        rfl
      exact ⟨_, _, c, hrun, .find, h.find hx⟩
  | union a b =>
      obtain ⟨ha, hb⟩ := hop
      have hrun : p.perform (.union a b) =
          .ok (.merged (p.union a b).1, (p.union a b).2) := by
        rw [Partition.perform, tryUnion, hsize, if_pos ⟨ha, hb⟩]
        rfl
      have hmerged : (p.union a b).1 = true ↔ ¬ Related c.united a b := by
        rw [← h.generated.same_iff]
        exact (union_spec h.generated.valid ha hb).1
      have hunited := (h.generated.union ha hb).represents
      exact ⟨_, _, _, hrun, .union hmerged hunited.chosen, hunited⟩
  | reset =>
      have hseparated := h.generated.reset.represents
      exact ⟨_, _, _, rfl, .reset hseparated.chosen, hseparated⟩

/-! ### A history -/

theorem represents_discrete (n : ℕ) : Represents n ⟨[], id⟩ (discrete n) := by
  constructor
  · exact generated_discrete n
  · intro x hx
    have hroot := (find_spec (valid_discrete n) hx).1
    exact hroot.eq_of_isEnd (parent_discrete n x)

/-- A history on the elements below `n` succeeds.  Its answers are those of the equivalence relation
that is generated by the pairs united since the last separation.  In the end, as after every part
of the history, each look-up ends, at the representative of a class, and leaves every other
representative where it is. -/
theorem performEach_generates (n : ℕ) (operations : List Operation)
    (hops : ∀ operation ∈ operations, operation.Inside n) :
    ∃ answers p c, performEach perform (discrete n) operations = .ok (answers, p) ∧
      Traces (Classes.Step n) ⟨[], id⟩ operations answers c ∧ c.Chosen n ∧
      ∀ x < n, ∃ q, p.tryFind x = .ok (c.representative x, q) ∧
        (q, c.representative x) ∈ StateTransition.eval halve (p, x) ∧
        ∀ y < n, (q.find y).1 = c.representative y := by
  obtain ⟨answers, p, c, hrun, hsteps, h⟩ :=
    performEach_traces (Classes.Step n) (Represents n) (fun h hop => h.perform hop)
      (represents_discrete n) operations hops
  have hvalid := h.generated.valid
  have hsize : p.size = n := hvalid.size_eq
  refine ⟨answers, p, c, hrun, hsteps, h.chosen, fun x hx => ⟨(p.find x).2, ?_, ?_, ?_⟩⟩
  · rw [tryFind, hsize, if_pos hx, ← h.find_eq x hx]
  · rw [← h.find_eq x hx]
    exact find_mem_eval hvalid hx
  · exact (h.find hx).find_eq

/-- Two pairs are joined by a third one, which is found after a look-up halved a path; after a
separation, the elements are alone again. -/
theorem performEach_generates_joined :
    let operations := [.union 0 1, .union 2 3, .union 1 3, .find 3, .union 0 2, .find 4, .reset,
      .union 0 2]
    (∀ operation ∈ operations, operation.Inside 5) ∧
      ∃ answers p c, performEach perform (discrete 5) operations = .ok (answers, p) ∧
        Traces (Classes.Step 5) ⟨[], id⟩ operations answers c ∧ c.Chosen 5 ∧
        answers = [.merged true, .merged true, .merged true, .representative 0, .merged false,
          .representative 4, .separated, .merged true] := by
  intro operations
  have hops : ∀ operation ∈ operations, operation.Inside 5 := by
    simp [operations, Operation.Inside]
  obtain ⟨answers, p, c, hrun, hsteps, hchosen, -⟩ := performEach_generates 5 operations hops
  have hanswers : (performEach perform (discrete 5) operations).map Prod.fst =
      .ok [.merged true, .merged true, .merged true, .representative 0, .merged false,
        .representative 4, .separated, .merged true] := by decide +kernel
  rw [hrun] at hanswers
  exact ⟨hops, answers, p, c, hrun, hsteps, hchosen, Except.ok.inj hanswers⟩

end Partition

end GraphInterval
