import GraphInterval.Proofs.Partition.Generated
import Mathlib.Data.Nat.Log

/-!
# How large ranks become

A rank is raised only when two classes of the same rank are merged, so the
class of a root of rank `r` has at least `2 ^ r` elements: merging adds up the
elements of two disjoint classes, and a look-up takes no element from its
class.  A rank is therefore at most the logarithm of the number of elements, and
a byte has room for it.
-/

namespace GraphInterval

namespace Partition

variable {n : ℕ} {p q : Partition} {a b r x : ℕ}

/-! ### Classes -/

/-- The elements that a look-up takes to a root. -/
def classOf (n : ℕ) (p : Partition) (r : ℕ) : Finset ℕ :=
  (Finset.range n).filter fun x => (p.find x).1 = r

theorem mem_classOf (hp : Valid n p) : x ∈ p.classOf n r ↔ x < n ∧ Leads p.parent x r := by
  rw [classOf, Finset.mem_filter, Finset.mem_range]
  apply and_congr_right
  intro hx
  have hroot := (find_spec hp hx).1
  exact ⟨fun heq => heq ▸ hroot, fun h => hroot.unique h⟩

theorem card_classOf_le (n : ℕ) (p : Partition) (r : ℕ) : (p.classOf n r).card ≤ n := by
  have hle := Finset.card_filter_le (Finset.range n) fun x => (p.find x).1 = r
  rwa [Finset.card_range] at hle

/-- No element belongs to two classes. -/
theorem disjoint_classOf (n : ℕ) (p : Partition) (hab : a ≠ b) :
    Disjoint (p.classOf n a) (p.classOf n b) := by
  rw [Finset.disjoint_left]
  intro x hxa hxb
  exact hab ((Finset.mem_filter.mp hxa).2.symm.trans (Finset.mem_filter.mp hxb).2)

/-- Classes with the same roots have the same elements. -/
theorem classOf_congr (hp : Valid n p) (hq : Valid n q)
    (h : ∀ x, Leads q.parent x r ↔ Leads p.parent x r) : q.classOf n r = p.classOf n r := by
  ext x
  rw [mem_classOf hp, mem_classOf hq, h]

/-- A root is left as the only end of its own class and of the class that is hung below it. -/
theorem leads_redirect_iff (hp : Valid n p) (ha : p.parent a = a) (hb : p.parent b = b)
    (hab : a ≠ b) (hq : q.parent = Function.update p.parent a b) :
    Leads q.parent x r ↔ (r = b ∧ Leads p.parent x a) ∨ (r ≠ a ∧ Leads p.parent x r) := by
  have hend : Leads q.parent b b := hq ▸ (Leads.stop hb).redirect_of_ne ha hab.symm
  obtain ⟨s, hs⟩ := hp.exists_root x
  by_cases hsa : s = a
  · subst hsa
    have hxb : Leads q.parent x b := by
      rw [hq] at hend ⊢
      exact hs.redirect ha hend
    constructor
    · intro hr
      exact .inl ⟨hr.unique hxb, hs⟩
    · rintro (⟨rfl, -⟩ | ⟨hne, hr⟩)
      · exact hxb
      · exact absurd (hr.unique hs) hne
  · have hxs : Leads q.parent x s := hq ▸ hs.redirect_of_ne ha hsa
    constructor
    · intro hr
      obtain rfl : r = s := hr.unique hxs
      exact .inr ⟨hsa, hs⟩
    · rintro (⟨-, hxa⟩ | ⟨-, hr⟩)
      · exact absurd (hs.unique hxa) hsa
      · exact hr.unique hs ▸ hxs

/-! ### Ranks and classes -/

/-- A look-up raises no rank. -/
theorem ranks_find (p : Partition) (x : ℕ) : (p.find x).2.ranks = p.ranks := by
  apply iterate_preserves (P := fun search : Partition × ℕ => search.1.ranks = p.ranks) _ _ _ rfl
  rintro ⟨q, y⟩ next h hnext
  simp only [halve] at hnext
  split at hnext
  next => cases hnext
  next =>
    cases hnext
    exact h

theorem rank_find (p : Partition) (x y : ℕ) : (p.find x).2.rank y = p.rank y := by
  rw [rank, ranks_find, rank]

/-- The class of every root is as large as the rank of the root demands. -/
structure Weighted (n : ℕ) (p : Partition) : Prop where
  valid : Valid n p
  pow_rank_le : ∀ r < n, p.parent r = r → 2 ^ p.rank r ≤ (p.classOf n r).card

theorem Valid.rank_le_of_leads (hp : Valid n p) (h : Leads p.parent x r) :
    p.rank x ≤ p.rank r := by
  induction h with
  | stop => exact Nat.le_refl _
  | step hne _ ih => exact Nat.le_trans (Nat.le_of_lt (hp.rank_lt _ hne)) ih

namespace Weighted

/-- The rank of an element is at most that of its root, whose class has at most all elements. -/
theorem rank_le_log (h : Weighted n p) (hx : x < n) : p.rank x ≤ Nat.log 2 n := by
  obtain ⟨r, hr⟩ := h.valid.exists_root x
  have hpow := h.pow_rank_le r (h.valid.leads_lt hr hx) hr.isEnd
  apply (h.valid.rank_le_of_leads hr).trans
  apply Nat.le_log_of_pow_le Nat.one_lt_two
  exact hpow.trans (card_classOf_le n p r)

theorem discrete (n : ℕ) : Weighted n (discrete n) := by
  have hvalid := valid_discrete n
  refine ⟨hvalid, fun r hr hend => ?_⟩
  have hrank : (Partition.discrete n).rank r = 0 := by simp [rank, Partition.discrete, hr]
  have hmem : r ∈ (Partition.discrete n).classOf n r :=
    (mem_classOf hvalid).mpr ⟨hr, Leads.stop hend⟩
  rw [hrank]
  exact Finset.card_pos.mpr ⟨r, hmem⟩

theorem find (h : Weighted n p) (hx : x < n) : Weighted n (p.find x).2 := by
  obtain ⟨-, hvalid, hkept⟩ := find_spec h.valid hx
  refine ⟨hvalid, fun r hr hend => ?_⟩
  rw [rank_find, classOf_congr h.valid hvalid fun y => hkept y r]
  exact h.pow_rank_le r hr (Leads.self_iff.mp ((hkept r r).mp (Leads.stop hend)))

/-- The new rank of a root that another one was hung below is paid for by both classes. -/
theorem hang (h : Weighted n p) (hq : Hung n p a b q) (ha : p.parent a = a) (hb : p.parent b = b)
    (hab : a ≠ b) (han : a < n) (hbn : b < n) : Weighted n q := by
  have hvalid := hq.valid h.valid hb hab hbn
  have hleads : ∀ {x r}, Leads q.parent x r ↔
      (r = b ∧ Leads p.parent x a) ∨ (r ≠ a ∧ Leads p.parent x r) :=
    leads_redirect_iff h.valid ha hb hab hq.parent_eq
  have hrank : 2 ^ q.rank b ≤ 2 ^ p.rank a + 2 ^ p.rank b := by
    obtain ⟨-, hkept⟩ | ⟨heq, hraised⟩ := hq.rank_eq
    · rw [hkept]
      exact Nat.le_add_left _ _
    · rw [hraised, heq, Nat.pow_succ, Nat.mul_two]
  refine ⟨hvalid, fun r hr hend => ?_⟩
  by_cases hrb : r = b
  · subst hrb
    have hunion : q.classOf n r = p.classOf n a ∪ p.classOf n r := by
      ext x
      rw [Finset.mem_union, mem_classOf hvalid, mem_classOf h.valid, mem_classOf h.valid, hleads,
        and_iff_right rfl, and_iff_right hab.symm, and_or_left]
    calc
      2 ^ q.rank r ≤ 2 ^ p.rank a + 2 ^ p.rank r := hrank
      _ ≤ (p.classOf n a).card + (p.classOf n r).card :=
        Nat.add_le_add (h.pow_rank_le a han ha) (h.pow_rank_le r hr hb)
      _ = (q.classOf n r).card := by
        rw [hunion, Finset.card_union_of_disjoint (disjoint_classOf n p hab)]
  · -- any other root keeps its rank and its class
    obtain ⟨heq, -⟩ | ⟨hra, hroot⟩ := hleads.mp (Leads.stop hend)
    · exact absurd heq hrb
    · have hkept : ∀ x, Leads q.parent x r ↔ Leads p.parent x r := by
        intro x
        rw [hleads, or_iff_right fun h => hrb h.1, and_iff_right hra]
      rw [hq.rank_other r hrb, classOf_congr h.valid hvalid hkept]
      exact h.pow_rank_le r hr hroot.isEnd

theorem link (h : Weighted n p) (ha : p.parent a = a) (hb : p.parent b = b) (hab : a ≠ b)
    (han : a < n) (hbn : b < n) : Weighted n (p.link a b) := by
  obtain hq | hq := link_cases h.valid han hbn
  · exact h.hang hq ha hb hab han hbn
  · exact h.hang hq hb ha hab.symm hbn han

end Weighted

/-! ### Ranks of limited size -/

section Limited

variable (raise : ℕ → Except Fault ℕ)

/-- Links two roots like `link` does, with another way to raise a rank. -/
def linkWith (p : Partition) (a b : ℕ) : Except Fault Partition :=
  let rankA := p.ranks.getD a 0
  let rankB := p.ranks.getD b 0
  if rankA < rankB then .ok { p with parents := p.parents.setIfInBounds a b }
  else if rankA = rankB then do
    let rank ← raise rankA
    return { parents := p.parents.setIfInBounds b a, ranks := p.ranks.setIfInBounds a rank }
  else .ok { p with parents := p.parents.setIfInBounds b a }

/-- Merges the classes of two elements, with another way to raise a rank. -/
def unionWith (p : Partition) (a b : ℕ) : Except Fault (Bool × Partition) :=
  let (rootA, p) := p.find a
  let (rootB, p) := p.find b
  if rootA = rootB then .ok (false, p)
  else do
    let p ← p.linkWith raise rootA rootB
    return (true, p)

/-- Performs one operation, with another way to raise a rank. -/
def performWith (p : Partition) : Operation → Except Fault (Answer × Partition)
  | .union a b => do
      if a < p.size ∧ b < p.size then
        let (merged, p) ← p.unionWith raise a b
        return (.merged merged, p)
      else throw .indexOutOfRange
  | operation => p.perform operation

variable {raise}

/-- Nothing but the raised rank matters. -/
theorem linkWith_eq (hraise : raise (p.rank a) = .ok (p.rank a + 1)) (b : ℕ) :
    p.linkWith raise a b = .ok (p.link a b) := by
  simp only [rank] at hraise
  rw [linkWith, link]
  split_ifs with hless heq
  · rfl
  · rw [hraise]
    rfl
  · rfl

end Limited

namespace Weighted

/-- Uniting two elements raises a rank that is at most the logarithm of the number of elements. -/
theorem union (h : Weighted n p) (ha : a < n) (hb : b < n) :
    Weighted n (p.union a b).2 ∧ ∀ raise : ℕ → Except Fault ℕ,
      (∀ r ≤ Nat.log 2 n, raise r = .ok (r + 1)) → p.unionWith raise a b = .ok (p.union a b) := by
  have hA := h.find ha
  have hB := hA.find hb
  have hrootA := (find_spec h.valid ha).1
  obtain ⟨hrootB, -, hkeptB⟩ := find_spec hA.valid hb
  have hkeptA := (find_spec h.valid ha).2.2
  simp only [Partition.union, unionWith]
  generalize p.find a = first at *
  obtain ⟨rootA, q⟩ := first
  generalize q.find b = second at *
  obtain ⟨rootB, q'⟩ := second
  dsimp only at *
  have hendA : q'.parent rootA = rootA :=
    Leads.isEnd ((hkeptB a rootA).mpr ((hkeptA a rootA).mpr hrootA))
  have hendB : q'.parent rootB = rootB := Leads.isEnd ((hkeptB b rootB).mpr hrootB)
  have hltA : rootA < n := h.valid.leads_lt hrootA ha
  have hltB : rootB < n := hA.valid.leads_lt hrootB hb
  split
  next => exact ⟨hB, fun raise _ => rfl⟩
  next hne =>
    refine ⟨hB.link hendA hendB hne hltA hltB, fun raise hraise => ?_⟩
    rw [linkWith_eq (hraise _ (hB.rank_le_log hltA))]
    rfl

/-- An operation on elements of the partition succeeds, in whatever way small ranks are raised. -/
theorem perform (h : Weighted n p) {operation : Operation} (hop : operation.Inside n)
    {raise : ℕ → Except Fault ℕ} (hraise : ∀ r ≤ Nat.log 2 n, raise r = .ok (r + 1)) :
    ∃ answer p', p.perform operation = .ok (answer, p') ∧
      p.performWith raise operation = .ok (answer, p') ∧ Weighted n p' := by
  have hsize : p.size = n := h.valid.size_eq
  cases operation with
  | find x =>
      have hx : x < n := hop
      have hrun : p.perform (.find x) = .ok (.representative (p.find x).1, (p.find x).2) := by
        rw [Partition.perform, tryFind, hsize, if_pos hx]
        rfl
      exact ⟨_, _, hrun, hrun, h.find hx⟩
  | union a b =>
      obtain ⟨ha, hb⟩ := hop
      obtain ⟨hunion, hwith⟩ := h.union ha hb
      have hrun : p.perform (.union a b) = .ok (.merged (p.union a b).1, (p.union a b).2) := by
        rw [Partition.perform, tryUnion, hsize, if_pos ⟨ha, hb⟩]
        rfl
      have hrun' : p.performWith raise (.union a b) =
          .ok (.merged (p.union a b).1, (p.union a b).2) := by
        rw [performWith, hsize, if_pos ⟨ha, hb⟩, hwith raise hraise]
        rfl
      exact ⟨_, _, hrun, hrun', hunion⟩
  | reset =>
      have hreset : Weighted n p.reset := by
        rw [Partition.reset, hsize]
        exact .discrete n
      exact ⟨_, _, rfl, rfl, hreset⟩

end Weighted

/-- After every history, the class of a root of rank `r` has at least `2 ^ r` elements, so no rank
exceeds the logarithm of the number of elements.  With less than `2 ^ 64` elements, the history is
the same for every arithmetic of ranks that adds one correctly to the ranks below 255: a byte holds
all ranks, and whatever happens when a byte overflows does not happen here. -/
theorem performEach_ranks (n : ℕ) (hn : n < 2 ^ 64) (operations : List Operation)
    (hops : ∀ operation ∈ operations, operation.Inside n) (raise : ℕ → Except Fault ℕ)
    (hraise : ∀ r < 255, raise r = .ok (r + 1)) :
    ∃ answers p, performEach perform (discrete n) operations = .ok (answers, p) ∧
      (∀ r < n, p.parent r = r → 2 ^ p.rank r ≤ (p.classOf n r).card) ∧
      (∀ x < n, p.rank x ≤ Nat.log 2 n) ∧
      performEach (performWith raise) (discrete n) operations = .ok (answers, p) := by
  have hlog : Nat.log 2 n < 64 := Nat.log_lt_of_lt_pow' (by omega) hn
  have hsmall : ∀ r ≤ Nat.log 2 n, raise r = .ok (r + 1) := fun r hr => hraise r (by omega)
  obtain ⟨answers, p, q, hrun, hsteps, rfl, h⟩ := performEach_traces
    (fun p operation answer p' => performWith raise p operation = .ok (answer, p'))
    (fun q p => q = p ∧ Weighted n p)
    (fun {q p operation} hR hop => by
      obtain ⟨rfl, h⟩ := hR
      obtain ⟨answer, p', hrun, hrun', h'⟩ := h.perform hop hsmall
      exact ⟨answer, p', p', hrun, hrun', rfl, h'⟩)
    ⟨rfl, Weighted.discrete n⟩ operations hops
  exact ⟨answers, q, hrun, h.pow_rank_le, fun x hx => h.rank_le_log hx,
    performEach_of_traces hsteps⟩

/-- Four elements are merged pair by pair to a class of rank 2, with ranks that fail beyond a byte. -/
theorem performEach_ranks_pairs :
    let operations : List Operation := [.union 0 1, .find 1, .reset, .union 0 1, .union 2 3,
      .union 1 3, .find 3, .union 3 4]
    let raise : ℕ → Except Fault ℕ := fun r =>
      if r < 255 then .ok (r + 1) else .error .indexOutOfRange
    5 < 2 ^ 64 ∧ (∀ operation ∈ operations, operation.Inside 5) ∧
      (∀ r < 255, raise r = .ok (r + 1)) ∧
      ∃ answers p, performEach perform (discrete 5) operations = .ok (answers, p) ∧
        performEach (performWith raise) (discrete 5) operations = .ok (answers, p) ∧
        p.parent 0 = 0 ∧ p.rank 0 = 2 ∧ 2 ^ 2 ≤ (p.classOf 5 0).card := by
  intro operations raise
  have hops : ∀ operation ∈ operations, operation.Inside 5 := by
    simp [operations, Operation.Inside]
  have hraise : ∀ r < 255, raise r = .ok (r + 1) := fun r hr => if_pos hr
  obtain ⟨answers, p, hrun, hweight, -, hwith⟩ :=
    performEach_ranks 5 (by decide) operations hops raise hraise
  have hroot : (performEach perform (discrete 5) operations).map
      (fun r => (r.2.parent 0, r.2.rank 0)) = .ok (0, 2) := by decide +kernel
  rw [hrun] at hroot
  obtain ⟨hparent, hrank⟩ := Prod.mk.inj (Except.ok.inj hroot)
  have hclass := hweight 0 (by decide) hparent
  rw [hrank] at hclass
  exact ⟨by decide, hops, hraise, answers, p, hrun, hwith, hparent, hrank, hclass⟩

end Partition

end GraphInterval
