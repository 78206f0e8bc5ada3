import GraphInterval.Partition
import GraphInterval.Proofs.Chain
import Mathlib.Data.Finset.Card
import Mathlib.Data.Finset.Range

/-!
# Partitions as equivalences

Ranks grow along the pointers of a partition, so every chain of pointers ends,
at the representative of its class.  Looking a representative up changes the
pointers but no representative, and uniting two elements joins their classes
and no others.
-/

namespace GraphInterval

namespace Partition

def rank (p : Partition) (x : Nat) : Nat := p.ranks.getD x 0

/-- The pointers stay inside of the partition and lead to larger ranks. -/
structure Valid (n : Nat) (p : Partition) : Prop where
  size_eq : p.parents.size = n
  ranks_size_eq : p.ranks.size = n
  parent_lt : ∀ x < n, p.parent x < n
  rank_lt : ∀ x, p.parent x ≠ x → p.rank x < p.rank (p.parent x)

/-- Two elements have one representative. -/
def Same (p : Partition) (x y : Nat) : Prop :=
  ∃ r, Leads p.parent x r ∧ Leads p.parent y r

variable {n : Nat} {p : Partition} {a b r x y z : Nat}

theorem parent_of_size_le (h : p.parents.size ≤ x) : p.parent x = x := by
  simp [parent, h]

/-- The number of elements of larger rank. -/
def above (n : Nat) (p : Partition) (x : Nat) : Nat :=
  ((Finset.range n).filter fun y => p.rank x < p.rank y).card

theorem above_lt (p : Partition) (hx : x < n) : above n p x < n := by
  have hsub : (Finset.range n).filter (fun y => p.rank x < p.rank y) ⊂ Finset.range n := by
    rw [Finset.ssubset_iff_of_subset (Finset.filter_subset _ _)]
    exact ⟨x, Finset.mem_range.mpr hx, by simp⟩
  have hcard := Finset.card_lt_card hsub
  rwa [Finset.card_range] at hcard

namespace Valid

theorem lt_of_parent_ne (hp : Valid n p) (hx : p.parent x ≠ x) : x < n := by
  by_contra hle
  apply hx
  apply parent_of_size_le
  have hsize := hp.size_eq
  omega

theorem descends (hp : Valid n p) : Descends p.parent (above n p) := by
  intro x hx
  have hrank := hp.rank_lt x hx
  have hlt := hp.parent_lt x (hp.lt_of_parent_ne hx)
  apply Finset.card_lt_card
  rw [Finset.ssubset_iff_of_subset]
  · refine ⟨p.parent x, ?_, ?_⟩
    · exact Finset.mem_filter.mpr ⟨Finset.mem_range.mpr hlt, hrank⟩
    · simp
  · intro y hy
    simp only [Finset.mem_filter] at hy ⊢
    exact ⟨hy.1, hrank.trans hy.2⟩

theorem exists_root (hp : Valid n p) (x : Nat) : ∃ r, Leads p.parent x r :=
  Leads.exists_end hp.descends x

theorem leads_lt (hp : Valid n p) (h : Leads p.parent x r) (hx : x < n) : r < n := by
  induction h with
  | stop => exact hx
  | step _ _ ih => exact ih (hp.parent_lt _ hx)

end Valid

theorem Same.refl (hp : Valid n p) (x : Nat) : Same p x x := by
  obtain ⟨r, hr⟩ := hp.exists_root x
  exact ⟨r, hr, hr⟩

theorem Same.symm (h : Same p x y) : Same p y x := by
  obtain ⟨r, hx, hy⟩ := h
  exact ⟨r, hy, hx⟩

theorem Same.trans (hxy : Same p x y) (hyz : Same p y z) : Same p x z := by
  obtain ⟨r, hx, hy⟩ := hxy
  obtain ⟨s, hy', hz⟩ := hyz
  rw [hy'.unique hy] at hz
  exact ⟨r, hx, hz⟩

theorem parent_discrete (n x : Nat) : (discrete n).parent x = x := by
  by_cases hx : x < n
  · simp [discrete, parent, hx]
  · simp [discrete, parent, Nat.le_of_not_lt hx]

theorem valid_discrete (n : Nat) : Valid n (discrete n) := by
  refine ⟨by simp [discrete], by simp [discrete], fun x hx => ?_, fun x hx => ?_⟩
  · rwa [parent_discrete]
  · exact absurd (parent_discrete n x) hx

theorem same_discrete : Same (discrete n) x y ↔ x = y := by
  constructor
  · rintro ⟨r, hx, hy⟩
    rw [← hx.eq_of_isEnd (parent_discrete n x), hy.eq_of_isEnd (parent_discrete n y)]
  · rintro rfl
    exact Same.refl (valid_discrete n) x

/-! ### Looking up -/

theorem parent_setIfInBounds (hx : x < p.parents.size) (z : Nat) (ranks : Array Nat) :
    ({ parents := p.parents.setIfInBounds x z, ranks } : Partition).parent =
      Function.update p.parent x z := by
  funext y
  simp only [parent, Function.update_apply, Array.getD_eq_getD_getElem?,
    Array.getElem?_setIfInBounds]
  by_cases hyx : y = x
  · simp [hyx, hx]
  · simp [hyx, Ne.symm hyx]

/-- A look-up has reached an element of the chain and left all representatives alone. -/
structure Searching (n : Nat) (p : Partition) (x : Nat) (search : Partition × Nat) : Prop where
  valid : Valid n search.1
  ranks_eq : search.1.ranks = p.ranks
  leads_iff : ∀ y r, Leads search.1.parent y r ↔ Leads p.parent y r
  reached : ∀ r, Leads p.parent x r → Leads p.parent search.2 r

/-- An element may point to its grandparent. -/
theorem valid_halve (hp : Valid n p) (hy : p.parent y ≠ y) :
    Valid n { p with parents := p.parents.setIfInBounds y (p.parent (p.parent y)) } := by
  have hylt := hp.lt_of_parent_ne hy
  have hparent := parent_setIfInBounds (p := p) (hp.size_eq ▸ hylt) (p.parent (p.parent y)) p.ranks
  refine ⟨?_, hp.ranks_size_eq, fun z hz => ?_, fun z hz => ?_⟩
  · simpa using hp.size_eq
  · rw [hparent, Function.update_apply]
    split
    · exact hp.parent_lt _ (hp.parent_lt y hylt)
    · exact hp.parent_lt z hz
  · rw [hparent] at hz ⊢
    change p.rank z < p.rank _
    by_cases hzy : z = y
    · subst hzy
      rw [Function.update_self] at hz ⊢
      have hup := hp.rank_lt z hy
      by_cases hend : p.parent (p.parent z) = p.parent z
      · rwa [hend]
      · exact hup.trans (hp.rank_lt _ hend)
    · rw [Function.update_of_ne hzy] at hz ⊢
      exact hp.rank_lt z hz

/-- Fewer elements rank above a grandparent. -/
theorem above_grandparent_lt (hp : Valid n p) (hy : p.parent y ≠ y) :
    above n p (p.parent (p.parent y)) < above n p y := by
  have hfirst := hp.descends y hy
  by_cases hend : p.parent (p.parent y) = p.parent y
  · rwa [hend]
  · exact (hp.descends _ hend).trans hfirst

theorem above_congr {q : Partition} (hranks : q.ranks = p.ranks) (z : Nat) :
    above n q z = above n p z := by
  have hrank : ∀ w, q.rank w = p.rank w := fun w =>
    congrArg (fun ranks : Array Nat => ranks.getD w 0) hranks
  apply congrArg Finset.card
  apply Finset.filter_congr
  intro w _
  rw [hrank, hrank]

theorem Searching.halve {search next : Partition × Nat} (h : Searching n p x search)
    (hnext : halve search = some next) :
    Searching n p x next ∧ above n p next.2 < above n p search.2 := by
  obtain ⟨q, y⟩ := search
  have hq := h.valid
  simp only [Partition.halve] at hnext
  split at hnext
  next => cases hnext
  next hy =>
    cases hnext
    have hparent := parent_setIfInBounds (p := q) (hq.size_eq ▸ hq.lt_of_parent_ne hy)
      (q.parent (q.parent y)) q.ranks
    refine ⟨⟨valid_halve hq hy, h.ranks_eq, fun z r => ?_, fun r hr => ?_⟩, ?_⟩
    · rw [hparent, Leads.halve_iff hq.descends hy]
      exact h.leads_iff z r
    · have hreached := (h.leads_iff y r).mpr (h.reached r hr)
      exact (h.leads_iff _ r).mp hreached.of_step.of_step
    · rw [← above_congr h.ranks_eq, ← above_congr h.ranks_eq]
      exact above_grandparent_lt hq hy

/-- A look-up answers the representative and keeps all representatives. -/
theorem find_spec (hp : Valid n p) (hx : x < n) :
    Leads p.parent x (p.find x).1 ∧ Valid n (p.find x).2 ∧
      ∀ y r, Leads (p.find x).2.parent y r ↔ Leads p.parent y r := by
  have hstart : Searching n p x (p, x) :=
    ⟨hp, rfl, fun _ _ => Iff.rfl, fun _ h => h⟩
  have hend := iterate_preserves (P := Searching n p x) (fun search next h hs => (h.halve hs).1)
    p.size (p, x) hstart
  have hnone := step_iterate_eq_none (P := Searching n p x) (m := fun search => above n p search.2)
    (fun search next h hs => h.halve hs) p.size (p, x) hstart
    ((above_lt p hx).le.trans_eq hp.size_eq.symm)
  rw [find]
  generalize iterate Partition.halve p.size (p, x) = search at hend hnone
  obtain ⟨q, y⟩ := search
  simp only [Partition.halve] at hnone
  split at hnone
  next hy =>
    obtain ⟨r, hr⟩ := hp.exists_root x
    have hyr : Leads p.parent y r := hend.reached r hr
    rw [hyr.unique ((hend.leads_iff y y).mp (Leads.stop hy))] at hr
    exact ⟨hr, hend.valid, hend.leads_iff⟩
  next => cases hnone

theorem same_find (hp : Valid n p) (hx : x < n) : Same (p.find x).2 y z ↔ Same p y z := by
  simp only [Same, (find_spec hp hx).2.2]

/-! ### Uniting -/

/-- Linking a root below another one joins their classes. -/
theorem redirect_spec {q : Partition} (ha : p.parent a = a) (hb : p.parent b = b) (hab : a ≠ b)
    (hp : Valid n p) (hq : q.parent = Function.update p.parent a b) :
    Same q y z ↔ Same p y z ∨ (Same p y a ∧ Same p b z) ∨ (Same p y b ∧ Same p a z) := by
  have hqb : Leads q.parent b b := by
    rw [hq]
    exact (Leads.stop hb).redirect_of_ne ha hab.symm
  have hleads : ∀ x r, Leads p.parent x r → Leads q.parent x (if r = a then b else r) := by
    intro x r hr
    by_cases hra : r = a
    · rw [if_pos hra, hq]
      rw [hq] at hqb
      exact (hra ▸ hr).redirect ha hqb
    · rw [if_neg hra, hq]
      exact hr.redirect_of_ne ha hra
  obtain ⟨r, hr⟩ := hp.exists_root y
  obtain ⟨s, hs⟩ := hp.exists_root z
  have hsame : ∀ {x t u}, Leads p.parent x t → p.parent u = u → (Same p x u ↔ t = u) := by
    intro x t u ht hu
    constructor
    · rintro ⟨v, hxv, huv⟩
      rw [ht.unique hxv, huv.eq_of_isEnd hu]
    · rintro rfl
      exact ⟨t, ht, Leads.stop hu⟩
  have hyz : Same p y z ↔ r = s := by
    constructor
    · rintro ⟨v, hyv, hzv⟩
      rw [hr.unique hyv, hs.unique hzv]
    · rintro rfl
      exact ⟨r, hr, hs⟩
  have hqyz : Same q y z ↔ (if r = a then b else r) = if s = a then b else s := by
    constructor
    · rintro ⟨v, hyv, hzv⟩
      rw [(hleads y r hr).unique hyv, (hleads z s hs).unique hzv]
    · intro heq
      exact ⟨_, hleads y r hr, heq ▸ hleads z s hs⟩
  have hflip : ∀ {u}, p.parent u = u → (Same p u z ↔ s = u) := fun hu =>
    ⟨fun h => (hsame hs hu).mp h.symm, fun h => ((hsame hs hu).mpr h).symm⟩
  rw [hqyz, hyz, hsame hr ha, hsame hr hb, hflip ha, hflip hb]
  grind

/-- A root is hung below another one of at least its rank, and equal ranks raise that of the
latter. -/
structure Hung (n : Nat) (p : Partition) (a b : Nat) (q : Partition) : Prop where
  size_eq : q.parents.size = n
  ranks_size_eq : q.ranks.size = n
  parent_eq : q.parent = Function.update p.parent a b
  rank_other : ∀ z, z ≠ b → q.rank z = p.rank z
  rank_eq : (p.rank a < p.rank b ∧ q.rank b = p.rank b) ∨
    (p.rank a = p.rank b ∧ q.rank b = p.rank b + 1)

theorem link_cases (hp : Valid n p) (ha : a < n) (hb : b < n) :
    Hung n p a b (p.link a b) ∨ Hung n p b a (p.link a b) := by
  have hsize := hp.size_eq
  have hranks := hp.ranks_size_eq
  rw [link]
  split
  next hless =>
    refine .inl ⟨?_, hranks, parent_setIfInBounds (hsize ▸ ha) b p.ranks, fun _ _ => rfl,
      .inl ⟨hless, rfl⟩⟩
    exact Array.size_setIfInBounds.trans hsize
  next hless =>
    have hparent := parent_setIfInBounds (p := p) (hsize ▸ hb) a
    have hsize' : (p.parents.setIfInBounds b a).size = n :=
      Array.size_setIfInBounds.trans hsize
    split
    next heq =>
      refine .inr ⟨hsize', Array.size_setIfInBounds.trans hranks, hparent _, fun z hz => ?_,
        .inr ⟨heq.symm, ?_⟩⟩
      · simp [rank, Ne.symm hz]
      · simp [rank, hranks.symm ▸ ha]
    next hne =>
      refine .inr ⟨hsize', hranks, hparent _, fun _ _ => rfl, .inl ⟨?_, rfl⟩⟩
      exact Nat.lt_of_le_of_ne (Nat.le_of_not_lt hless) (Ne.symm hne)

theorem Hung.valid {q : Partition} (h : Hung n p a b q) (hp : Valid n p) (hb : p.parent b = b)
    (hab : a ≠ b) (hbn : b < n) : Valid n q := by
  have hgrown : ∀ z, p.rank z ≤ q.rank z := by
    intro z
    by_cases hz : z = b
    · have hrank := h.rank_eq
      rw [hz]
      omega
    · exact (h.rank_other z hz).ge
  refine ⟨h.size_eq, h.ranks_size_eq, fun x hx => ?_, fun x hx => ?_⟩
  · rw [h.parent_eq, Function.update_apply]
    split
    · exact hbn
    · exact hp.parent_lt x hx
  · rw [h.parent_eq] at hx ⊢
    by_cases hxa : x = a
    · subst hxa
      have hrank := h.rank_eq
      rw [Function.update_self, h.rank_other x hab]
      omega
    · rw [Function.update_of_ne hxa] at hx ⊢
      have hxb : x ≠ b := fun heq => hx (heq ▸ hb)
      rw [h.rank_other x hxb]
      exact (hp.rank_lt x hx).trans_le (hgrown _)

theorem link_spec (hp : Valid n p) (ha : p.parent a = a) (hb : p.parent b = b) (hab : a ≠ b)
    (han : a < n) (hbn : b < n) :
    Valid n (p.link a b) ∧ ∀ y z, Same (p.link a b) y z ↔
      Same p y z ∨ (Same p y a ∧ Same p b z) ∨ (Same p y b ∧ Same p a z) := by
  obtain h | h := link_cases hp han hbn
  · exact ⟨h.valid hp hb hab hbn, fun y z => redirect_spec ha hb hab hp h.parent_eq⟩
  · refine ⟨h.valid hp ha hab.symm han, fun y z => ?_⟩
    rw [redirect_spec hb ha hab.symm hp h.parent_eq]
    exact or_congr_right Or.comm

/-- Uniting two elements tells whether their classes were distinct, and joins them. -/
theorem union_spec (hp : Valid n p) (ha : a < n) (hb : b < n) :
    ((p.union a b).1 = true ↔ ¬ Same p a b) ∧ Valid n (p.union a b).2 ∧
      ∀ y z, Same (p.union a b).2 y z ↔
        Same p y z ∨ (Same p y a ∧ Same p b z) ∨ (Same p y b ∧ Same p a z) := by
  obtain ⟨hrootA, hpA, hsameA⟩ := find_spec hp ha
  rw [union]
  generalize p.find a = first at hrootA hpA hsameA
  obtain ⟨rootA, q⟩ := first
  obtain ⟨hrootB, hpB, hsameB⟩ := find_spec hpA hb
  dsimp only at *
  generalize q.find b = second at hrootB hpB hsameB
  obtain ⟨rootB, q'⟩ := second
  dsimp only at *
  have hsame : ∀ y z, Same q' y z ↔ Same p y z := by
    intro y z
    simp only [Same, hsameB, hsameA]
  have hA : Leads q'.parent a rootA := (hsameB a rootA).mpr ((hsameA a rootA).mpr hrootA)
  have hB : Leads q'.parent b rootB := (hsameB b rootB).mpr hrootB
  have hab : Same p a b ↔ rootA = rootB := by
    rw [← hsame]
    constructor
    · rintro ⟨r, har, hbr⟩
      rw [hA.unique har, hB.unique hbr]
    · rintro rfl
      exact ⟨rootA, hA, hB⟩
  split
  next heq =>
    have habp : Same p a b := hab.mpr heq
    refine ⟨by simp [habp], hpB, fun y z => ?_⟩
    rw [hsame]
    refine ⟨Or.inl, ?_⟩
    rintro (h | ⟨h, h'⟩ | ⟨h, h'⟩)
    · exact h
    · exact (h.trans habp).trans h'
    · exact (h.trans habp.symm).trans h'
  next hne =>
    obtain ⟨hlink, hclasses⟩ := link_spec hpB hA.isEnd hB.isEnd hne (hpB.leads_lt hA ha)
      (hpB.leads_lt hB hb)
    have hfirst : Same q' a rootA := ⟨rootA, hA, Leads.stop hA.isEnd⟩
    have hsecond : Same q' b rootB := ⟨rootB, hB, Leads.stop hB.isEnd⟩
    have hto : ∀ {u v w}, Same q' v w → (Same q' u w ↔ Same p u v) := fun hvw =>
      ⟨fun h => (hsame _ _).mp (h.trans hvw.symm), fun h => ((hsame _ _).mpr h).trans hvw⟩
    have hfrom : ∀ {u v w}, Same q' v w → (Same q' w u ↔ Same p v u) := fun hvw =>
      ⟨fun h => (hsame _ _).mp (hvw.trans h), fun h => hvw.symm.trans ((hsame _ _).mpr h)⟩
    refine ⟨by simp [hab, hne], hlink, fun y z => ?_⟩
    rw [hclasses, hsame, hto hfirst, hto hsecond, hfrom hfirst, hfrom hsecond]

end Partition

end GraphInterval
