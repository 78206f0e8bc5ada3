import GraphInterval.Proofs.Channel.Pass

/-!
# The channel keeps every solution

A solution is a graph of the domain with a successor for every node such that
successors are neighbours and every edge leads from one of its ends to the
successor of that end.  An edge that has lost one of its directions can only be
passed in the other one, and a value that is no neighbour is never a successor.
So every single inference keeps all solutions, and can only fail if there are
none.  This holds on the live domains, whatever was taken away before.
-/

namespace GraphInterval

namespace ChannelDomains

variable {d d' d₁ : ChannelDomains} {i : Nat} {H : Shape} {next : Nat → Nat} {values : Values}

/-- A graph of the domain, and a possible value for the successor of every node. -/
structure Admits (d : ChannelDomains) (H : Shape) (next : Nat → Nat) : Prop where
  graph : d.graph.Admits H
  allows : ∀ i < d.graph.order, d.allows i (next i) = true

/-- Taking values away adds no instantiation. -/
theorem Channels.admits (h : Channels d d') (hadmits : d'.Admits H next) : d.Admits H next := by
  refine ⟨h.graph_eq ▸ hadmits.graph, fun i hi => h.allows i (next i) (hadmits.allows i ?_)⟩
  rwa [h.graph_eq]

theorem Admits.withSuccessor (hd : d.Valid) (hi : i < d.graph.order) (hadmits : d.Admits H next)
    (hvalue : values.contains (next i) = true) : (d.withSuccessor i values).Admits H next := by
  refine ⟨hadmits.graph, fun j hj => ?_⟩
  rw [ChannelDomains.allows, successor_withSuccessor (hd.size_eq.symm ▸ hi)]
  split
  next heq => exact heq ▸ hvalue
  next => exact hadmits.allows j hj

end ChannelDomains

namespace Channel

open ChannelDomains

variable {d d' d₁ : ChannelDomains} {s : State} {c : Channel} {i j x : Nat} {H : Shape}
  {next : Nat → Nat}

/-- The successor of every node is a neighbour of it, and every edge leads from one of its ends to
the successor of that end. -/
structure Holds (order : Nat) (H : Shape) (next : Nat → Nat) : Prop where
  follows : ∀ i < order, H.edge i (next i)
  directs : ∀ i j, H.edge i j → next i = j ∨ next j = i

/-- The graphs and successors within the domains that satisfy the constraint. -/
def solutions (d : ChannelDomains) : Set (Shape × (Nat → Nat)) :=
  {solution | d.Admits solution.1 solution.2 ∧ Holds d.graph.order solution.1 solution.2}

/-- The successors of a solution are possible neighbours. -/
theorem isNeighbour_of_mem (hd : d.Valid) (hsolution : (H, next) ∈ solutions d)
    (hi : i < d.graph.order) : d.isNeighbour i (next i) = true := by
  obtain ⟨hadmits, hholds⟩ := hsolution
  have hpotential : d.graph.isPotential i (next i) = true :=
    hadmits.graph.le_upper.2 i (next i) (hholds.follows i hi)
  simp [isNeighbour, hpotential, (hd.graph.lt_order hpotential).2]

/-- A solution passes a mandatory edge without one direction in the other one. -/
theorem next_of_not_allows (hd : d.Valid) (hsolution : (H, next) ∈ solutions d)
    (hij : d.graph.isMandatory i j = true) (hnot : d.allows j i = false) : next i = j := by
  obtain ⟨hadmits, hholds⟩ := hsolution
  refine (hholds.directs i j (hadmits.graph.lower_le.2 i j hij)).resolve_right fun hnext => ?_
  have hallows := hadmits.allows j (hd.lt_order hij).2
  rw [hnext] at hallows
  exact absurd (hnot.symm.trans hallows) (by simp)

/-- Values were taken away, but none of a solution. -/
structure Keeps (d d' : ChannelDomains) : Prop where
  channels : Channels d d'
  solutions_subset : solutions d ⊆ solutions d'

/-- Values were taken away from domains without solutions. -/
structure Refutes (d d' : ChannelDomains) : Prop where
  channels : Channels d d'
  no_solution : ∀ solution, solution ∉ solutions d

theorem Keeps.refl (hd : d.Valid) : Keeps d d := ⟨.refl hd, fun _ h => h⟩

theorem Keeps.trans (hd : d.Valid) (h : Keeps d d₁) (h' : Keeps d₁ d') : Keeps d d' :=
  ⟨h.channels.trans hd h'.channels, h.solutions_subset.trans h'.solutions_subset⟩

theorem Keeps.refutes (hd : d.Valid) (h : Keeps d d₁) (h' : Refutes d₁ d') : Refutes d d' :=
  ⟨h.channels.trans hd h'.channels, fun solution hsolution =>
    h'.no_solution solution (h.solutions_subset hsolution)⟩

/-- An inference that every solution complies with keeps them all. -/
theorem Keeps.of_withSuccessor {values : Values} (hd : d.Valid) (hi : i < d.graph.order)
    (hchannels : Channels d (d.withSuccessor i values))
    (hvalue : ∀ H next, (H, next) ∈ solutions d → values.contains (next i) = true) :
    Keeps d (d.withSuccessor i values) := by
  refine ⟨hchannels, ?_⟩
  rintro ⟨H, next⟩ hsolution
  exact ⟨hsolution.1.withSuccessor hd hi (hvalue H next hsolution), hsolution.2⟩

/-- A failing inference leaves the domains as they are. -/
theorem Refutes.of_eq {values : Values} (hd : d.Valid) (hvalues : values = d.successor i)
    (hnone : ∀ H next, (H, next) ∉ solutions d) : Refutes d (d.withSuccessor i values) := by
  rw [hvalues, withSuccessor_self]
  exact ⟨.refl hd, fun solution => hnone solution.1 solution.2⟩

/-! ### Single inferences -/

theorem assign_keeps (hd : d.Valid) (hij : d.graph.isMandatory i j = true)
    (hnot : d.allows j i = false) :
    (onSuccessor i (Values.assign j)).wp (fun _ d' => Keeps d d') (fun _ d' => Refutes d d') d := by
  have hi := (hd.lt_order hij).1
  have hchannels := assign_wp hd hij
  rw [onSuccessor_wp] at hchannels ⊢
  refine Attempt.wp_mono (Attempt.wp_and hchannels (Values.assign_wp (hd.successor i hi) j)) ?_ ?_
  · rintro _ values ⟨⟨hchannels, -⟩, -, -, hfixed⟩
    refine .of_withSuccessor hd hi hchannels fun H next hsolution => ?_
    exact (hfixed _).mpr (next_of_not_allows hd hsolution hij hnot)
  · rintro _ values ⟨-, -, hsame, hexcluded⟩
    refine .of_eq hd hsame fun H next hsolution => ?_
    have hallows : d.allows i (next i) = true := hsolution.1.allows i hi
    rw [next_of_not_allows hd hsolution hij hnot] at hallows
    exact absurd (hexcluded.symm.trans hallows) (by simp)

theorem directEdge_keeps (hd : d.Valid) (hij : d.graph.isMandatory i j = true) :
    (directEdge i j).wp (fun _ d' => Keeps d d') (fun _ d' => Refutes d d') d := by
  rw [directEdge, Attempt.wp_bind, Attempt.wp_get, Attempt.wp_ite, Bool.not_eq_true']
  refine ⟨fun hnot => assign_keeps hd (hd.isMandatory_symm hij) hnot, fun _ => ?_⟩
  rw [Attempt.wp_ite, Bool.not_eq_true']
  exact ⟨fun hnot => assign_keeps hd hij hnot, fun _ => .refl hd⟩

theorem remove_keeps (hd : d.Valid) (hi : i < d.graph.order) (hx : d.isNeighbour i x = false) :
    (onSuccessor i (Values.remove x)).wp (fun _ d' => Keeps d d') (fun _ d' => Refutes d d') d := by
  have hne : ∀ H next, (H, next) ∈ solutions d → next i ≠ x := by
    rintro H next hsolution rfl
    exact absurd (hx.symm.trans (isNeighbour_of_mem hd hsolution hi)) (by simp)
  have hchannels := remove_wp hd hi hx
  rw [onSuccessor_wp] at hchannels ⊢
  refine Attempt.wp_mono (Attempt.wp_and hchannels (Values.remove_wp (hd.successor i hi) x)) ?_ ?_
  · rintro _ values ⟨⟨hchannels, -⟩, -, hcontains⟩
    refine .of_withSuccessor hd hi hchannels fun H next hsolution => ?_
    exact (hcontains _).mpr ⟨hne H next hsolution, hsolution.1.allows i hi⟩
  · rintro _ values ⟨-, -, hsame, hfixed⟩
    refine .of_eq hd hsame fun H next hsolution => ?_
    exact hne H next hsolution ((hfixed _).mp (hsolution.1.allows i hi))

/-! ### The whole pass -/

/-- A loop of inferences that keep the solutions of the live domains keeps those of the original
ones. -/
theorem forM_keeps {f : Nat → Run Unit} {l : List Nat} {d : ChannelDomains} (hd : d.Valid)
    (hstep : ∀ b ∈ l, ∀ t : State, Channels d t.domains →
      (f b).wp (fun _ t' => Keeps t.domains t'.domains)
        (fun _ t' => Refutes t.domains t'.domains) t)
    (hs : Keeps d s.domains) :
    (l.forM f).wp (fun _ s' => Keeps d s'.domains) (fun _ s' => Refutes d s'.domains) s := by
  refine Attempt.wp_forM_keep (I := fun t : State => Keeps d t.domains)
    (fun b hb t ht => ?_) hs
  exact Attempt.wp_mono (hstep b hb t ht.channels) (fun _ _ h => ht.trans hd h)
    fun _ _ h => ht.refutes hd h

theorem channelNode_keeps (hd : s.domains.Valid) (hi : i < s.domains.graph.order) :
    (channelNode i).wp (fun _ s' => Keeps s.domains s'.domains)
      (fun _ s' => Refutes s.domains s'.domains) s := by
  rw [channelNode, Attempt.wp_bind, Posted.wp_visitEach]
  refine Attempt.wp_mono (forM_keeps hd (fun j hj t ht => ?_) (.refl hd)) ?_ fun _ _ h => h
  · refine assignAlong_wp (directEdge_keeps ht.valid ?_)
    rw [ht.graph_eq]
    exact (Graph.mem_successors hd.graph.lower).mp hj
  · rintro _ t hkeeps
    have hchannels := hkeeps.channels
    rw [Posted.wp_visitEach]
    refine forM_keeps hd (fun x hx u hu => ?_) hkeeps
    refine removeValue_wp (remove_keeps hu.valid (hu.graph_eq ▸ hi) ?_)
    rw [isNeighbour_of_channels hu, ← isNeighbour_of_channels hchannels]
    simpa using (List.mem_filter.mp hx).2

theorem propagateFromScratch_keeps (hd : s.domains.Valid) :
    propagateFromScratch.wp (fun _ s' => Keeps s.domains s'.domains)
      (fun _ s' => Refutes s.domains s'.domains) s := by
  rw [propagateFromScratch, Attempt.wp_bind, Posted.update, Attempt.wp_modify, Attempt.wp_bind,
    Attempt.wp_get]
  refine forM_keeps hd (fun i hi t ht => ?_) (.refl hd)
  exact channelNode_keeps ht.valid (ht.graph_eq ▸ List.mem_range.mp hi)

/-- The solutions that are left are those of the original domains. -/
theorem Keeps.solutions_eq (h : Keeps d d') : solutions d' = solutions d := by
  refine Set.Subset.antisymm (fun solution hsolution => ?_) h.solutions_subset
  exact ⟨h.channels.admits hsolution.1, h.channels.graph_eq ▸ hsolution.2⟩

/-- If there is a solution, then propagating from scratch succeeds.  A success keeps all solutions,
and also a failure changes no graph and gives no successor a further value. -/
theorem propagateFromScratch_keeps_solutions (hd : d.WellPosed) (c : Channel) :
    ((∃ solution, solution ∈ solutions d) → ∃ s, propagateFromScratch ⟨c, d⟩ = .ok () s) ∧
      (∀ s, propagateFromScratch ⟨c, d⟩ = .ok () s → solutions s.domains = solutions d) ∧
      ∀ s, (propagateFromScratch ⟨c, d⟩ = .ok () s ∨
          ∃ failure, propagateFromScratch ⟨c, d⟩ = .error failure s) →
        s.domains.graph = d.graph ∧ s.domains.successors.size = d.successors.size ∧
          ∀ i x, s.domains.allows i x = true → d.allows i x = true := by
  have hvalid := hd.valid
  have hwp := propagateFromScratch_keeps (s := ⟨c, d⟩) hvalid
  refine ⟨fun hsolution => ?_, fun s hrun => (Attempt.of_wp_ok hwp hrun).solutions_eq,
    fun s hrun => ?_⟩
  · obtain ⟨solution, hmem⟩ := hsolution
    cases hrun : propagateFromScratch ⟨c, d⟩ with
    | ok _ s => exact ⟨s, rfl⟩
    | error failure s => exact absurd hmem ((Attempt.of_wp_error hwp hrun).no_solution solution)
  · have hchannels : Channels d s.domains := by
      obtain hrun | ⟨failure, hrun⟩ := hrun
      · exact (Attempt.of_wp_ok hwp hrun).channels
      · exact (Attempt.of_wp_error hwp hrun).channels
    refine ⟨hchannels.graph_eq, ?_, hchannels.allows⟩
    rw [hchannels.valid.size_eq, hvalid.size_eq, hchannels.graph_eq]

/-- The tour along a triangle stays, while the pass takes away a value off the graph and another
one that leads against it. -/
theorem propagateFromScratch_keeps_solutions_triangle :
    let g := (GraphVar.Mutation.enforceEdge 0 2).run.after
      ((GraphVar.Mutation.enforceEdge 1 2).run.after
        ((GraphVar.Mutation.enforceEdge 0 1).run.after (GraphVar.unconstrained 3 false)))
    let values (l : List Nat) : Values :=
      { members := l.foldl SparseSet.insert (SparseSet.empty 5), trail := {} }
    let d : ChannelDomains :=
      { graph := g, successors := #[values [2], values [0, 2], values [0, 1, 4]] }
    let next (i : Nat) := (i + 2) % 3
    d.WellPosed ∧ (g.lower.shape, next) ∈ solutions d ∧ d.allows 1 2 = true ∧
      d.allows 2 4 = true ∧ ∃ s, propagateFromScratch ⟨{}, d⟩ = .ok () s ∧
        (g.lower.shape, next) ∈ solutions s.domains ∧ s.domains.allows 1 2 = false ∧
        s.domains.allows 2 4 = false := by
  intro g values d next
  have hg : g.Reachable := .mutate _ (.mutate _ (.mutate _ (.unconstrained 3 false)))
  have hd : d.WellPosed := by
    refine ⟨hg, by decide +kernel, by decide +kernel, fun v hv => ?_⟩
    have hmem : v = values [2] ∨ v = values [0, 2] ∨ v = values [0, 1, 4] := by
      simpa [d] using hv
    obtain rfl | rfl | rfl := hmem
    · exact .make (show Values.make 5 [2] = .ok (values [2]) from rfl)
    · exact .make (show Values.make 5 [0, 2] = .ok (values [0, 2]) from rfl)
    · exact .make (show Values.make 5 [0, 1, 4] = .ok (values [0, 1, 4]) from rfl)
  have hsolution : (g.lower.shape, next) ∈ solutions d := by
    refine ⟨⟨hg.valid.admits_lower, by decide +kernel⟩, ?_, fun i j hij => ?_⟩
    · show ∀ i < d.graph.order, g.isMandatory i (next i) = true
      decide +kernel
    · have hdirects : ∀ i < 3, ∀ j < 3, g.isMandatory i j = true → next i = j ∨ next j = i := by
        decide +kernel
      obtain ⟨hi, hj⟩ := hg.valid.lower.lt_of_hasEdge hij
      exact hdirects i hi j hj hij
  have heval : propagateFromScratch.passes
      (fun _ s => !s.domains.allows 1 2 && !s.domains.allows 2 4) ⟨{}, d⟩ = true := by
    decide +kernel
  obtain ⟨_, s, hrun, hgone⟩ := Attempt.passes_iff.mp heval
  rw [Bool.and_eq_true, Bool.not_eq_true', Bool.not_eq_true'] at hgone
  obtain ⟨-, hkeeps, -⟩ := propagateFromScratch_keeps_solutions hd {}
  exact ⟨hd, hsolution, by decide +kernel, by decide +kernel, s, hrun,
    hkeeps s hrun ▸ hsolution, hgone⟩

end Channel

end GraphInterval
