import GraphInterval.Channel
import GraphInterval.Proofs.Domain.Values
import GraphInterval.Proofs.GraphVar.Reachable
import GraphInterval.Proofs.Propagation

/-!
# One pass of the channel

The channel looks at every node once, in increasing order.  A mandatory edge
that lost one of its directions before the pass has the other one afterwards,
and every value is a neighbour.  An edge may however lose a direction during
the pass, when a successor is fixed along another mandatory edge of the same
node, after the pass looked at it.  So a second pass changes nothing exactly if
this did not happen.
-/

namespace GraphInterval

namespace ChannelDomains

variable {d d' d₁ : ChannelDomains} {i j v x : Nat} {values : Values}

/-- The graph is undirected, and the successor of every node has a value. -/
structure Valid (d : ChannelDomains) : Prop where
  graph : d.graph.Valid
  directed_eq : d.graph.directed = false
  size_eq : d.successors.size = d.graph.order
  successor : ∀ i < d.graph.order, (d.successor i).Valid

/-- The channel can be posted on the domains, which are in any state that their users produce. -/
structure WellPosed (d : ChannelDomains) : Prop where
  graph : d.graph.Reachable
  directed_eq : d.graph.directed = false
  size_eq : d.successors.size = d.graph.order
  successors : ∀ values ∈ d.successors, values.Reachable

theorem WellPosed.valid (hd : d.WellPosed) : d.Valid := by
  refine ⟨hd.graph.valid, hd.directed_eq, hd.size_eq, fun i hi => ?_⟩
  have hsize : i < d.successors.size := hd.size_eq ▸ hi
  have hget : d.successor i = d.successors[i] := by simp [successor, hsize]
  rw [hget]
  exact (hd.successors _ (Array.getElem_mem hsize)).valid

/-- The successor of every node is a neighbour of it. -/
def WithinNeighbours (d : ChannelDomains) : Prop :=
  ∀ i < d.graph.order, ∀ x, d.allows i x = true → d.isNeighbour i x = true

/-- A mandatory edge that does not lead to its second end leads to its first. -/
def DirectsEdges (d : ChannelDomains) : Prop :=
  ∀ i j, d.graph.isMandatory i j = true → d.allows i j = false → (d.successor j).value? = some i

theorem Valid.lt_order (hd : d.Valid) (hij : d.graph.isMandatory i j = true) :
    i < d.graph.order ∧ j < d.graph.order :=
  hd.graph.lt_order (hd.graph.isPotential hij)

theorem Valid.isMandatory_symm (hd : d.Valid) (hij : d.graph.isMandatory i j = true) :
    d.graph.isMandatory j i = true :=
  hd.graph.lower.symm (hd.graph.directed_eq.trans hd.directed_eq) hij

theorem Valid.isNeighbour (hd : d.Valid) (hij : d.graph.isMandatory i j = true) :
    d.isNeighbour i j = true := by
  simp [ChannelDomains.isNeighbour, (hd.lt_order hij).2, hd.graph.isPotential hij]

/-! ### Changing one successor -/

/-- The domains with another domain for the successor of a node. -/
def withSuccessor (d : ChannelDomains) (i : Nat) (values : Values) : ChannelDomains :=
  { d with successors := d.successors.setIfInBounds i values }

theorem onSuccessor_wp {α : Type} {x : Attempt Values α} {Q : α → ChannelDomains → Prop}
    {E : Failure → ChannelDomains → Prop} :
    (onSuccessor i x).wp Q E d ↔
      x.wp (fun a values => Q a (d.withSuccessor i values))
        (fun f values => E f (d.withSuccessor i values)) (d.successor i) :=
  Attempt.wp_within x

theorem successor_withSuccessor (hi : i < d.successors.size) (values : Values) (j : Nat) :
    (d.withSuccessor i values).successor j = if i = j then values else d.successor j := by
  simp only [successor, withSuccessor, Array.getD_eq_getD_getElem?,
    Array.getElem?_setIfInBounds]
  split
  next heq => simp
  next => rfl

theorem withSuccessor_self (d : ChannelDomains) (i : Nat) :
    d.withSuccessor i (d.successor i) = d := by
  have hsame : d.successors.setIfInBounds i (d.successor i) = d.successors := by
    apply Array.ext
    · exact Array.size_setIfInBounds
    · intro j hj hj'
      rw [Array.getElem_setIfInBounds]
      split
      next heq =>
        subst heq
        simp [successor, hj']
      next => rfl
  rw [withSuccessor, hsame]

/-- Values were taken away, those of mandatory edges only to fix a successor along another one. -/
structure Channels (d d' : ChannelDomains) : Prop where
  graph_eq : d'.graph = d.graph
  valid : d'.Valid
  allows : ∀ i x, d'.allows i x = true → d.allows i x = true
  kept : ∀ i j, d.graph.isMandatory i j = true → d.allows i j = true → d'.allows i j = true ∨
    ∃ k, d.graph.isMandatory i k = true ∧ (d'.successor i).IsFixedTo k

theorem Channels.refl (hd : d.Valid) : Channels d d :=
  ⟨rfl, hd, fun _ _ h => h, fun _ _ _ h => .inl h⟩

/-- A fixed successor stays fixed. -/
theorem Channels.isFixedTo (h : Channels d d') (hi : i < d.graph.order)
    (hv : (d.successor i).IsFixedTo v) : (d'.successor i).IsFixedTo v :=
  (h.valid.successor i (h.graph_eq ▸ hi)).isFixedTo fun x hx => (hv x).mp (h.allows i x hx)

theorem Channels.trans (hd : d.Valid) (h : Channels d d₁) (h' : Channels d₁ d') :
    Channels d d' := by
  refine ⟨h'.graph_eq.trans h.graph_eq, h'.valid, fun i x hx => h.allows i x (h'.allows i x hx),
    fun i j hij hallows => ?_⟩
  obtain hallows' | ⟨k, hk, hfixed⟩ := h.kept i j hij hallows
  · rw [← h.graph_eq] at hij ⊢
    exact h'.kept i j hij hallows'
  · have hi : i < d₁.graph.order := h.graph_eq ▸ (hd.lt_order hij).1
    exact .inr ⟨k, hk, h'.isFixedTo hi hfixed⟩

theorem Channels.not_allows (h : Channels d d') (hx : d.allows i x = false) :
    d'.allows i x = false := by
  rw [Bool.eq_false_iff] at hx ⊢
  exact fun hx' => hx (h.allows i x hx')

/-- Only the values of one successor are taken away. -/
theorem Channels.of_withSuccessor (hd : d.Valid) (hi : i < d.graph.order)
    (hvalues : values.Valid) (hsub : ∀ x, values.contains x = true → d.allows i x = true)
    (hkept : ∀ j, d.graph.isMandatory i j = true → d.allows i j = true →
      values.contains j = true ∨ ∃ k, d.graph.isMandatory i k = true ∧ values.IsFixedTo k) :
    Channels d (d.withSuccessor i values) := by
  have hsuccessor := successor_withSuccessor (d := d) (hd.size_eq.symm ▸ hi) values
  refine ⟨rfl, ⟨hd.graph, hd.directed_eq, Array.size_setIfInBounds.trans hd.size_eq, ?_⟩, ?_, ?_⟩
  · intro j hj
    rw [hsuccessor]
    split
    · exact hvalues
    · exact hd.successor j hj
  · intro j x hx
    rw [ChannelDomains.allows, hsuccessor] at hx
    split at hx
    next heq => exact heq ▸ hsub x hx
    next => exact hx
  · intro j k hjk hallows
    rw [ChannelDomains.allows, hsuccessor]
    split
    next heq =>
      subst heq
      exact hkept k hjk hallows
    next => exact .inl hallows

end ChannelDomains

namespace Channel

open ChannelDomains

abbrev State := Posted Channel ChannelDomains

variable {d : ChannelDomains} {s : State} {c : Channel} {i j x : Nat}

/-! ### Single inferences -/

/-- Fixing the successor of one end of a mandatory edge to the other end. -/
theorem assign_wp (hd : d.Valid) (hij : d.graph.isMandatory i j = true) :
    (onSuccessor i (Values.assign j)).wp
      (fun _ d' => Channels d d' ∧ (d'.successor i).IsFixedTo j) (fun _ _ => True) d := by
  have hi := (hd.lt_order hij).1
  rw [onSuccessor_wp]
  refine Attempt.wp_mono (Values.assign_wp (hd.successor i hi) j) ?_ fun _ _ _ => trivial
  rintro _ values ⟨hvalues, hj, hfixed⟩
  refine ⟨.of_withSuccessor hd hi hvalues (fun x hx => ?_) fun k hik _ => ?_, ?_⟩
  · exact (hfixed x).mp hx ▸ hj
  · exact .inr ⟨j, hij, hfixed⟩
  · rw [successor_withSuccessor (hd.size_eq.symm ▸ hi), if_pos rfl]
    exact hfixed

theorem directEdge_wp (hd : d.Valid) (hij : d.graph.isMandatory i j = true) :
    (directEdge i j).wp
      (fun _ d' => Channels d d' ∧ (d.allows i j = false → (d'.successor j).IsFixedTo i))
      (fun _ _ => True) d := by
  have hji := hd.isMandatory_symm hij
  rw [directEdge, Attempt.wp_bind, Attempt.wp_get, Attempt.wp_ite, Bool.not_eq_true']
  refine ⟨fun _ => ?_, fun hallows => ?_⟩
  · exact Attempt.wp_mono (assign_wp hd hji) (fun _ _ h => ⟨h.1, fun _ => h.2⟩) fun _ _ h => h
  rw [Attempt.wp_ite]
  refine ⟨fun _ => ?_, fun _ => ⟨.refl hd, fun hnot => absurd hnot hallows⟩⟩
  exact Attempt.wp_mono (assign_wp hd hij) (fun _ _ h => ⟨h.1, fun hnot => absurd hnot hallows⟩)
    fun _ _ h => h

theorem remove_wp (hd : d.Valid) (hi : i < d.graph.order) (hx : d.isNeighbour i x = false) :
    (onSuccessor i (Values.remove x)).wp
      (fun _ d' => Channels d d' ∧ d'.allows i x = false) (fun _ _ => True) d := by
  rw [onSuccessor_wp]
  refine Attempt.wp_mono (Values.remove_wp (hd.successor i hi) x) ?_ fun _ _ _ => trivial
  rintro _ values ⟨hvalues, hcontains⟩
  refine ⟨.of_withSuccessor hd hi hvalues (fun y hy => ((hcontains y).mp hy).2)
    fun k hik hallows => .inl ((hcontains k).mpr ⟨?_, hallows⟩), ?_⟩
  · rintro rfl
    exact absurd ((hd.isNeighbour hik).symm.trans hx) (by simp)
  · rw [allows, successor_withSuccessor (hd.size_eq.symm ▸ hi), if_pos rfl, Bool.eq_false_iff]
    exact fun hy => ((hcontains x).mp hy).1 rfl

/-- The counters play no role in what happens to the domains. -/
theorem assignAlong_wp {P : ChannelDomains → Prop} {F : Failure → ChannelDomains → Prop}
    (h : (directEdge i j).wp (fun _ d => P d) F s.domains) :
    (assignAlong i j).wp (fun _ s => P s.domains) (fun failure s => F failure s.domains) s := by
  rw [assignAlong, Attempt.wp_bind, Posted.onDomains, Attempt.wp_within]
  refine Attempt.wp_mono h (fun changed d hd => ?_) fun _ _ hf => hf
  rw [Attempt.wp_ite]
  exact ⟨fun _ => hd, fun _ => hd⟩

theorem removeValue_wp {P : ChannelDomains → Prop} {F : Failure → ChannelDomains → Prop}
    (h : (onSuccessor i (Values.remove x)).wp (fun _ d => P d) F s.domains) :
    (removeValue i x).wp (fun _ s => P s.domains) (fun failure s => F failure s.domains) s := by
  rw [removeValue, Attempt.wp_bind, Posted.onDomains, Attempt.wp_within]
  refine Attempt.wp_mono h (fun changed d hd => ?_) fun _ _ hf => hf
  rw [Attempt.wp_ite]
  exact ⟨fun _ => hd, fun _ => hd⟩

/-! ### One node -/

/-- The edges of a node that lost a direction have the other one, and its values are neighbours. -/
structure Channelled (d : ChannelDomains) (i : Nat) (d' : ChannelDomains) : Prop where
  directed : ∀ j, d.graph.isMandatory i j = true → d.allows i j = false →
    (d'.successor j).IsFixedTo i
  within : ∀ x, d'.allows i x = true → d.isNeighbour i x = true

theorem Channelled.trans {d₁ d' : ChannelDomains} (hd : d.Valid) (h : Channelled d i d₁)
    (h₁ : Channels d d₁) (h' : Channels d₁ d') : Channelled d i d' := by
  refine ⟨fun j hij hnot => ?_, fun x hx => h.within x (h'.allows i x hx)⟩
  exact h'.isFixedTo (h₁.graph_eq ▸ (hd.lt_order hij).2) (h.directed j hij hnot)

theorem Channelled.of_channels {d₀ d' : ChannelDomains} (h₀ : Channels d₀ d)
    (h : Channelled d i d') : Channelled d₀ i d' := by
  refine ⟨fun j hij hnot => h.directed j (h₀.graph_eq ▸ hij) (h₀.not_allows hnot), fun x hx => ?_⟩
  have hneighbour := h.within x hx
  rwa [isNeighbour, h₀.graph_eq] at hneighbour

theorem isNeighbour_of_channels {d' : ChannelDomains} (h : Channels d d') (i x : Nat) :
    d'.isNeighbour i x = d.isNeighbour i x := by
  rw [isNeighbour, isNeighbour, h.graph_eq]

theorem visitEach_assignAlong_wp (hd : s.domains.Valid) :
    (Posted.visitEach valuesBuffer (fun d => (d.graph.lower.successors i).toList)
        (assignAlong i)).wp
      (fun _ s' => Channels s.domains s'.domains ∧
        ∀ j, s.domains.graph.isMandatory i j = true → s.domains.allows i j = false →
          (s'.domains.successor j).IsFixedTo i)
      (fun _ _ => True) s := by
  have hmem : ∀ j, j ∈ (s.domains.graph.lower.successors i).toList ↔
      s.domains.graph.isMandatory i j = true := fun j => Graph.mem_successors hd.graph.lower
  rw [Posted.wp_visitEach]
  refine Attempt.wp_mono (Attempt.wp_forM_each (I := fun t => Channels s.domains t.domains)
    (D := fun j t => s.domains.allows i j = false → (t.domains.successor j).IsFixedTo i)
    (fun j hj t hchannels => ?_) (.refl hd)) ?_ fun _ _ hf => hf
  · have hij : t.domains.graph.isMandatory i j = true := hchannels.graph_eq ▸ (hmem j).mp hj
    refine Attempt.wp_mono (assignAlong_wp (directEdge_wp hchannels.valid hij)) ?_ fun _ _ hf => hf
    rintro _ t' ⟨hstep, hfixed⟩
    refine ⟨hchannels.trans hd hstep, fun hnot => hfixed (hchannels.not_allows hnot),
      fun k hk hdone hnot => ?_⟩
    have hik := (hmem k).mp hk
    exact hstep.isFixedTo (hchannels.graph_eq ▸ (hd.lt_order hik).2) (hdone hnot)
  · rintro _ t ⟨hchannels, hdone⟩
    exact ⟨hchannels, fun j hij => hdone j ((hmem j).mpr hij)⟩

theorem visitEach_removeValue_wp (hd : s.domains.Valid) (hi : i < s.domains.graph.order) :
    (Posted.visitEach valuesBuffer
        (fun d => (d.successor i).members.toList.filter (!d.isNeighbour i ·)) (removeValue i)).wp
      (fun _ s' => Channels s.domains s'.domains ∧
        ∀ x, s'.domains.allows i x = true → s.domains.isNeighbour i x = true)
      (fun _ _ => True) s := by
  have hmembers := (hd.successor i hi).members
  rw [Posted.wp_visitEach]
  refine Attempt.wp_mono (Attempt.wp_forM_each (I := fun t => Channels s.domains t.domains)
    (D := fun x t => t.domains.allows i x = false)
    (fun x hx t hchannels => ?_) (.refl hd)) ?_ fun _ _ hf => hf
  · have hoff : s.domains.isNeighbour i x = false := by simpa using (List.mem_filter.mp hx).2
    refine Attempt.wp_mono (removeValue_wp (remove_wp hchannels.valid (hchannels.graph_eq ▸ hi)
      ((isNeighbour_of_channels hchannels i x).trans hoff))) ?_ fun _ _ hf => hf
    rintro _ t' ⟨hstep, hgone⟩
    exact ⟨hchannels.trans hd hstep, hgone, fun _ _ hgone' => hstep.not_allows hgone'⟩
  · rintro _ t ⟨hchannels, hgone⟩
    refine ⟨hchannels, fun x hx => ?_⟩
    by_contra hoff
    have hmem : x ∈ (s.domains.successor i).members.toList.filter
        (!s.domains.isNeighbour i ·) :=
      List.mem_filter.mpr ⟨(SparseSet.mem_toList hmembers).mpr (hchannels.allows i x hx),
        by simpa using hoff⟩
    exact absurd ((hgone x hmem).symm.trans hx) (by simp)

theorem channelNode_wp (hd : s.domains.Valid) (hi : i < s.domains.graph.order) :
    (channelNode i).wp
      (fun _ s' => Channels s.domains s'.domains ∧ Channelled s.domains i s'.domains)
      (fun _ _ => True) s := by
  rw [channelNode, Attempt.wp_bind]
  refine Attempt.wp_mono (visitEach_assignAlong_wp hd) ?_ fun _ _ hf => hf
  rintro _ t ⟨hchannels, hdirected⟩
  refine Attempt.wp_mono (visitEach_removeValue_wp hchannels.valid (hchannels.graph_eq ▸ hi)) ?_
    fun _ _ hf => hf
  rintro _ t' ⟨hchannels', hwithin⟩
  refine ⟨hchannels.trans hd hchannels', fun j hij hnot => ?_, fun x hx => ?_⟩
  · exact hchannels'.isFixedTo (hchannels.graph_eq ▸ (hd.lt_order hij).2) (hdirected j hij hnot)
  · rw [← isNeighbour_of_channels hchannels]
    exact hwithin x hx

/-! ### The whole pass -/

theorem propagateFromScratch_wp (hd : s.domains.Valid) :
    propagateFromScratch.wp
      (fun _ s' => Channels s.domains s'.domains ∧
        ∀ i < s.domains.graph.order, Channelled s.domains i s'.domains)
      (fun _ _ => True) s := by
  rw [propagateFromScratch, Attempt.wp_bind, Posted.update, Attempt.wp_modify, Attempt.wp_bind,
    Attempt.wp_get]
  refine Attempt.wp_mono (Attempt.wp_forM_each (I := fun t => Channels s.domains t.domains)
    (D := fun i t => Channelled s.domains i t.domains)
    (fun i hi t hchannels => ?_) (.refl hd)) ?_ fun _ _ hf => hf
  · have hi' : i < t.domains.graph.order := hchannels.graph_eq ▸ List.mem_range.mp hi
    refine Attempt.wp_mono (channelNode_wp hchannels.valid hi') ?_ fun _ _ hf => hf
    rintro _ t' ⟨hstep, hchannelled⟩
    exact ⟨hchannels.trans hd hstep, hchannelled.of_channels hchannels,
      fun _ _ hdone => hdone.trans hd hchannels hstep⟩
  · rintro _ t ⟨hchannels, hdone⟩
    exact ⟨hchannels, fun i hi => hdone i (List.mem_range.mpr hi)⟩

/-! ### Passes that change nothing -/

theorem assign_idle (hd : d.Valid) (hi : i < d.graph.order)
    (hfixed : (d.successor i).value? = some j) :
    (onSuccessor i (Values.assign j)).wp (fun _ d' => d' = d) (fun _ _ => False) d := by
  have hvalues := hd.successor i hi
  rw [onSuccessor_wp, Attempt.wp, Values.assign_of_isFixedTo hvalues
    ((Values.value?_eq_some_iff hvalues).mp hfixed)]
  exact withSuccessor_self d i

theorem directEdge_idle (hd : d.Valid) (hdirects : d.DirectsEdges)
    (hij : d.graph.isMandatory i j = true) :
    (directEdge i j).wp (fun _ d' => d' = d) (fun _ _ => False) d := by
  have hji := hd.isMandatory_symm hij
  rw [directEdge, Attempt.wp_bind, Attempt.wp_get, Attempt.wp_ite, Bool.not_eq_true']
  refine ⟨fun hnot => assign_idle hd (hd.lt_order hij).2 (hdirects i j hij hnot), fun _ => ?_⟩
  rw [Attempt.wp_ite, Bool.not_eq_true']
  exact ⟨fun hnot => assign_idle hd (hd.lt_order hij).1 (hdirects j i hji hnot), fun _ => rfl⟩

theorem channelNode_idle (hd : s.domains.Valid) (hdirects : s.domains.DirectsEdges)
    (hwithin : s.domains.WithinNeighbours) (hi : i < s.domains.graph.order) :
    (channelNode i).wp (fun _ s' => s'.domains = s.domains) (fun _ _ => False) s := by
  rw [channelNode, Attempt.wp_bind, Posted.wp_visitEach]
  refine Attempt.wp_mono (Attempt.wp_forM_keep (I := fun t => t.domains = s.domains)
    (fun j hj t hsame => ?_) rfl) ?_ fun _ _ hf => hf
  · refine assignAlong_wp (P := fun d => d = s.domains) (F := fun _ _ => False) ?_
    rw [hsame]
    exact directEdge_idle hd hdirects ((Graph.mem_successors hd.graph.lower).mp hj)
  · intro _ t hsame
    have hnone : (s.domains.successor i).members.toList.filter (!s.domains.isNeighbour i ·) =
        [] := by
      rw [List.filter_eq_nil_iff]
      intro x hx
      rw [SparseSet.mem_toList (hd.successor i hi).members] at hx
      simp [hwithin i hi x hx]
    rw [Posted.wp_visitEach, hsame, hnone]
    exact hsame

theorem propagateFromScratch_idle (hd : s.domains.Valid) (hdirects : s.domains.DirectsEdges)
    (hwithin : s.domains.WithinNeighbours) :
    propagateFromScratch.wp (fun _ s' => s'.domains = s.domains) (fun _ _ => False) s := by
  rw [propagateFromScratch, Attempt.wp_bind, Posted.update, Attempt.wp_modify, Attempt.wp_bind,
    Attempt.wp_get]
  refine Attempt.wp_forM_keep (I := fun t : State => t.domains = s.domains)
    (fun i hi t hsame => ?_) rfl
  rw [← hsame] at hd hdirects hwithin hi ⊢
  exact channelNode_idle hd hdirects hwithin (List.mem_range.mp hi)

/-- Once every value is a neighbour, a pass changes nothing exactly if no mandatory edge without a
direction still has to be given the other one. -/
theorem exists_idle_iff (hd : s.domains.Valid) (hwithin : s.domains.WithinNeighbours) :
    (∃ s', propagateFromScratch s = .ok () s' ∧ s'.domains = s.domains) ↔
      s.domains.DirectsEdges := by
  constructor
  · rintro ⟨s', hrun, hsame⟩ i j hij hnot
    obtain ⟨hi, hj⟩ := hd.lt_order hij
    obtain ⟨-, hchannelled⟩ := Attempt.of_wp_ok (propagateFromScratch_wp hd) hrun
    have hfixed := (hchannelled i hi).directed j hij hnot
    rw [hsame] at hfixed
    exact (Values.value?_eq_some_iff (hd.successor j hj)).mpr hfixed
  · intro hdirects
    obtain ⟨_, s', hrun, hsame⟩ :=
      Attempt.exists_ok (propagateFromScratch_idle hd hdirects hwithin)
    exact ⟨s', hrun, hsame⟩

/-- After a successful pass, the successor of every node is a neighbour, and a mandatory edge that
had lost a direction before the pass has the other one.  An edge without one of its directions
leads the other way or starts at a node whose successor was fixed along another mandatory edge.  A
second pass changes nothing if and only if all of them lead the other way. -/
theorem propagateFromScratch_directs (hd : d.WellPosed)
    (hrun : propagateFromScratch ⟨c, d⟩ = .ok () s) :
    s.domains.graph = d.graph ∧
      (∀ i x, s.domains.allows i x = true → d.allows i x = true) ∧
      s.domains.WithinNeighbours ∧
      (∀ i j, d.graph.isMandatory i j = true → d.allows i j = false →
        (s.domains.successor j).value? = some i) ∧
      (∀ i j, d.graph.isMandatory i j = true → s.domains.allows i j = false →
        (s.domains.successor j).value? = some i ∨
          ∃ k, d.graph.isMandatory i k = true ∧ (s.domains.successor i).value? = some k) ∧
      ((∃ s', propagateFromScratch s = .ok () s' ∧ s'.domains = s.domains) ↔
        s.domains.DirectsEdges) := by
  have hvalid := hd.valid
  obtain ⟨hchannels, hchannelled⟩ :=
    Attempt.of_wp_ok (propagateFromScratch_wp (s := ⟨c, d⟩) hvalid) hrun
  have hwithin : s.domains.WithinNeighbours := by
    intro i hi x hx
    rw [isNeighbour_of_channels hchannels]
    exact (hchannelled i (hchannels.graph_eq ▸ hi)).within x hx
  have hvalue : ∀ {i x}, i < d.graph.order → (s.domains.successor i).IsFixedTo x →
      (s.domains.successor i).value? = some x := fun hi hx =>
    (Values.value?_eq_some_iff (hchannels.valid.successor _ (hchannels.graph_eq ▸ hi))).mpr hx
  have hdirected : ∀ i j, d.graph.isMandatory i j = true → d.allows i j = false →
      (s.domains.successor j).value? = some i := by
    intro i j hij hnot
    obtain ⟨hi, hj⟩ := hvalid.lt_order hij
    exact hvalue hj ((hchannelled i hi).directed j hij hnot)
  refine ⟨hchannels.graph_eq, hchannels.allows, hwithin, hdirected, fun i j hij hnot => ?_,
    exists_idle_iff hchannels.valid hwithin⟩
  cases hallows : d.allows i j with
  | false => exact .inl (hdirected i j hij hallows)
  | true =>
      -- the direction was lost during the pass
      obtain hallows' | ⟨k, hk, hfixed⟩ := hchannels.kept i j hij hallows
      · exact absurd (hnot.symm.trans hallows') (by simp)
      · exact .inr ⟨k, hk, hvalue (hvalid.lt_order hij).1 hfixed⟩

/-- The successors at the end of a path are fixed one after the other, in the order of the pass. -/
theorem propagateFromScratch_directs_path :
    let g := (GraphVar.Mutation.enforceEdge 1 2).run.after
      ((GraphVar.Mutation.enforceEdge 0 1).run.after (GraphVar.unconstrained 3 false))
    let values (l : List Nat) : Values :=
      { members := l.foldl SparseSet.insert (SparseSet.empty 3), trail := {} }
    let d : ChannelDomains := { graph := g, successors := #[values [2], values [0, 2], values [0, 1]] }
    d.WellPosed ∧ d.graph.isMandatory 0 1 = true ∧ d.allows 0 1 = false ∧
      ∃ s, propagateFromScratch ⟨{}, d⟩ = .ok () s ∧ (s.domains.successor 1).value? = some 0 ∧
        (s.domains.successor 2).value? = some 1 ∧ s.domains.WithinNeighbours := by
  intro g values d
  have hd : d.WellPosed := by
    have hg : g.Reachable := .mutate _ (.mutate _ (.unconstrained 3 false))
    refine ⟨hg, by decide +kernel, by decide +kernel, fun v hv => ?_⟩
    have hmem : v = values [2] ∨ v = values [0, 2] ∨ v = values [0, 1] := by simpa [d] using hv
    obtain rfl | rfl | rfl := hmem
    · exact .make (show Values.make 3 [2] = .ok (values [2]) from rfl)
    · exact .make (show Values.make 3 [0, 2] = .ok (values [0, 2]) from rfl)
    · exact .make (show Values.make 3 [0, 1] = .ok (values [0, 1]) from rfl)
  have hmandatory : d.graph.isMandatory 0 1 = true := by decide +kernel
  have hnot : d.allows 0 1 = false := by decide +kernel
  have heval : propagateFromScratch.passes (fun _ s => (s.domains.successor 2).value? == some 1)
      ⟨{}, d⟩ = true := by decide +kernel
  obtain ⟨_, s, hrun, hlast⟩ := Attempt.passes_iff.mp heval
  obtain ⟨-, -, hwithin, hdirected, -, -⟩ := propagateFromScratch_directs hd hrun
  exact ⟨hd, hmandatory, hnot, s, hrun, hdirected 0 1 hmandatory hnot, by simpa using hlast,
    hwithin⟩

/-- Along the same path in the other direction, the pass is past node 0 when it fixes the successor
of node 1; the edge between them is left without a direction, and a second pass is not idle. -/
theorem propagateFromScratch_leaves_inference :
    let g := (GraphVar.Mutation.enforceEdge 1 2).run.after
      ((GraphVar.Mutation.enforceEdge 0 1).run.after (GraphVar.unconstrained 3 false))
    let values (l : List Nat) : Values :=
      { members := l.foldl SparseSet.insert (SparseSet.empty 3), trail := {} }
    let d : ChannelDomains := { graph := g, successors := #[values [1, 2], values [0, 2], values [0]] }
    d.WellPosed ∧ ∃ s s', propagateFromScratch ⟨{}, d⟩ = .ok () s ∧
      s.domains.graph.isMandatory 1 0 = true ∧ s.domains.allows 1 0 = false ∧
      (s.domains.successor 0).value? = none ∧ ¬ s.domains.DirectsEdges ∧
      propagateFromScratch s = .ok () s' ∧ (s'.domains.successor 0).value? = some 1 ∧
      s'.domains ≠ s.domains := by
  intro g values d
  have hd : d.WellPosed := by
    have hg : g.Reachable := .mutate _ (.mutate _ (.unconstrained 3 false))
    refine ⟨hg, by decide +kernel, by decide +kernel, fun v hv => ?_⟩
    have hmem : v = values [1, 2] ∨ v = values [0, 2] ∨ v = values [0] := by simpa [d] using hv
    obtain rfl | rfl | rfl := hmem
    · exact .make (show Values.make 3 [1, 2] = .ok (values [1, 2]) from rfl)
    · exact .make (show Values.make 3 [0, 2] = .ok (values [0, 2]) from rfl)
    · exact .make (show Values.make 3 [0] = .ok (values [0]) from rfl)
  have heval : propagateFromScratch.passes (fun _ s =>
      s.domains.graph.isMandatory 1 0 && !s.domains.allows 1 0 &&
        (s.domains.successor 0).value? == none &&
        propagateFromScratch.passes (fun _ s' => (s'.domains.successor 0).value? == some 1) s)
      ⟨{}, d⟩ = true := by decide +kernel
  obtain ⟨_, s, hrun, htest⟩ := Attempt.passes_iff.mp heval
  simp only [Bool.and_eq_true, Bool.not_eq_true', beq_iff_eq, Attempt.passes_iff] at htest
  obtain ⟨⟨⟨hmandatory, hnot⟩, hnone⟩, _, s', hrun', hfixed⟩ := htest
  refine ⟨hd, s, s', hrun, hmandatory, hnot, hnone, fun hdirects => ?_, hrun', hfixed,
    fun hsame => ?_⟩
  · have hdirected := hdirects 1 0 hmandatory hnot
    rw [hnone] at hdirected
    cases hdirected
  · rw [hsame, hnone] at hfixed
    cases hfixed

end Channel

end GraphInterval
