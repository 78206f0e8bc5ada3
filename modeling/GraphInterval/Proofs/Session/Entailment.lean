import GraphInterval.Proofs.Channel.Solutions
import GraphInterval.Proofs.Degree.Exact
import GraphInterval.Proofs.GraphVar.Instantiation
import GraphInterval.Proofs.Session.Contract

/-!
# Answers about entailment

A constraint is judged by the bounds of its domain, and the answer is about all
instantiations between them.  Each check looks for a reason that rules them all
out: a missing composition of mandatory edges, a node with too many mandatory
edges, mandatory nodes that no path joins, a fixed successor off the graph, or
a mandatory edge without directions.  Without such a reason, a domain that is
left with a single instantiation satisfies the constraint, as the bounds are
that instantiation.
-/

namespace GraphInterval

namespace Entailment

variable {ι : Type} {instances : Set ι} {Holds : ι → Prop} {instantiated : Prop}

/-- What an answer about a constraint says about the instantiations of a domain: all or none of
them satisfy it.  A single instantiation is always judged. -/
structure Correct (answer : Entailment) (instances : Set ι) (Holds : ι → Prop)
    (instantiated : Prop) : Prop where
  violated : answer = .violated → ∀ x ∈ instances, ¬ Holds x
  satisfied : answer = .satisfied → ∀ x ∈ instances, Holds x
  decided : instantiated → answer ≠ .undetermined
  judged : instantiated →
    (∃ x, x ∈ instances) ∧ ∀ x ∈ instances, (answer = .satisfied ↔ Holds x)

/-- A check that finds a reason for a violation whenever a single instantiation violates the
constraint. -/
theorem Correct.of_check (check : Bool) {single : Bool} {answer : Entailment}
    (hanswer : answer = if check then .violated else .ofInstantiated single)
    (hnonempty : ∃ x, x ∈ instances) (hsingle : instantiated → single = true)
    (hviolated : check = true → ∀ x ∈ instances, ¬ Holds x)
    (hsatisfied : check = false → single = true → ∀ x ∈ instances, Holds x) :
    answer.Correct instances Holds instantiated := by
  subst hanswer
  cases check with
  | true =>
      refine ⟨fun _ => hviolated rfl, by simp, by simp, fun _ => ⟨hnonempty, fun x hx => ?_⟩⟩
      simpa using hviolated rfl x hx
  | false =>
      cases single with
      | true =>
          refine ⟨by simp [ofInstantiated], fun _ => hsatisfied rfl rfl, by simp [ofInstantiated],
            fun _ => ⟨hnonempty, fun x hx => ?_⟩⟩
          simpa [ofInstantiated] using hsatisfied rfl rfl x hx
      | false =>
          have hnot : ¬ instantiated := fun h => Bool.false_ne_true (hsingle h)
          exact ⟨by simp [ofInstantiated], by simp [ofInstantiated], fun h => absurd h hnot,
            fun h => absurd h hnot⟩

end Entailment

/-! ### Transitive graphs -/

namespace Transitivity

variable {g : GraphVar} {H : Shape}

theorem exists_isViolatedFrom_iff (hg : g.Valid) :
    (List.range g.order).any (isViolatedFrom g) = true ↔
      ∃ a b c, a ≠ b ∧ b ≠ c ∧ a ≠ c ∧ g.isMandatory a b = true ∧ g.isMandatory b c = true ∧
        g.isPotential a c = false := by
  simp only [isViolatedFrom, List.any_eq_true, List.mem_range, Graph.mem_successors hg.lower,
    Bool.and_eq_true, bne_iff_ne, Bool.not_eq_true']
  constructor
  · rintro ⟨a, -, b, hab, hba, c, hbc, ⟨hca, hcb⟩, hac⟩
    exact ⟨a, b, c, hba.symm, hcb.symm, hca.symm, hab, hbc, hac⟩
  · rintro ⟨a, b, c, hab', hbc', hac', hab, hbc, hac⟩
    have ha := (hg.lt_order (hg.isPotential hab)).1
    exact ⟨a, ha, b, hab, hab'.symm, c, hbc, ⟨hac'.symm, hbc'.symm⟩, hac⟩

theorem correct_entailment (hg : g.Valid) :
    (entailment g).Correct {H | g.Admits H} Shape.IsTransitive
      (g.lower.shape = g.upper.shape) := by
  refine .of_check _ rfl ⟨_, hg.admits_lower⟩ (GraphVar.isInstantiated_iff hg).mpr ?_ ?_
  · rw [exists_isViolatedFrom_iff hg]
    rintro ⟨a, b, c, hab', hbc', hac', hab, hbc, hac⟩ H hH htransitive
    have hedge := htransitive a b c hab' hbc' hac' (hH.lower_le.2 a b hab) (hH.lower_le.2 b c hbc)
    exact absurd (hac.symm.trans (hH.le_upper.2 a c hedge)) (by simp)
  · intro hcheck hsingle H hH a b c hab' hbc' hac' hab hbc
    obtain rfl := hH.eq_upper hg hsingle
    by_contra hac
    rw [← Bool.not_eq_true, exists_isViolatedFrom_iff hg] at hcheck
    exact hcheck ⟨a, b, c, hab', hbc', hac', GraphVar.isMandatory_of_isInstantiated hg hsingle hab,
      GraphVar.isMandatory_of_isInstantiated hg hsingle hbc, Bool.eq_false_iff.mpr hac⟩

end Transitivity

/-! ### Bounded degrees -/

namespace DegreeLimit

variable {g : GraphVar}

theorem correct_entailment (hg : g.Valid) (p : DegreeLimit) :
    (p.entailment g).Correct {H | g.Admits H} p.Bounded (g.lower.shape = g.upper.shape) := by
  have hexceeds : g.lower.nodes.toList.any
      (fun v => decide (p.bound v < (neighbourhood p.orientation g.lower v).size)) = true ↔
        ∃ v, g.isMandatoryNode v = true ∧ p.bound v < p.degree g.lower v := by
    simp only [List.any_eq_true, Graph.mem_nodes hg.lower, decide_eq_true_eq]
    rfl
  refine .of_check _ rfl ⟨_, hg.admits_lower⟩ (GraphVar.isInstantiated_iff hg).mpr ?_ ?_
  · rw [hexceeds]
    rintro ⟨v, -, hv⟩ H hH
    exact not_bounded_of_exceeds hg hv hH
  · intro hcheck hsingle H hH v hv
    rw [← Bool.not_eq_true, hexceeds] at hcheck
    obtain rfl := hH.eq_upper hg hsingle
    rw [← (GraphVar.isInstantiated_iff hg).mp hsingle, encard_incidence hg.lower]
    refine Nat.cast_le.mpr (Nat.le_of_not_lt fun hlt => hcheck ⟨v, ?_, hlt⟩)
    exact GraphVar.isMandatoryNode_of_isInstantiated hg hsingle hv

end DegreeLimit

/-! ### Connected graphs -/

namespace Connectivity

variable {g : GraphVar} {r : Nat}

/-- A graph with two mandatory nodes that no path joins is not connected. -/
theorem joins_of_isConnected {H : Shape} (hH : g.Admits H) (hconnected : H.IsConnected) {m : Nat}
    (hr : g.isMandatoryNode r = true) (hm : g.isMandatoryNode m = true) :
    g.upper.shape.Joins none r m :=
  (hconnected r m (hH.lower_le.1 r hr) (hH.lower_le.1 m hm)).mono hH.le_upper

theorem correct_entailment (hg : g.Valid) :
    (entailment g).Correct {H | g.Admits H} Shape.IsConnected
      (g.lower.shape = g.upper.shape) := by
  have hnonempty : ∃ H, H ∈ {H | g.Admits H} := ⟨_, hg.admits_lower⟩
  have hsingle_iff := GraphVar.isInstantiated_iff hg
  cases hhead : g.lower.nodes.toList.head? with
  | none =>
      have hnone : ∀ v, ¬ g.isMandatoryNode v = true := by
        intro v hv
        have hmem := (Graph.mem_nodes hg.lower).mpr hv
        rw [List.head?_eq_none_iff.mp hhead] at hmem
        exact absurd hmem List.not_mem_nil
      refine .of_check false (by simp [entailment, hhead]) hnonempty hsingle_iff.mpr
        (by simp) fun _ hsingle H hH v _ hv _ => ?_
      have hv' := hH.le_upper.1 v hv
      exact absurd (GraphVar.isMandatoryNode_of_isInstantiated hg hsingle hv') (hnone v)
  | some root =>
      have hroot : g.isMandatoryNode root = true :=
        (Graph.mem_nodes hg.lower).mp (List.mem_of_head? hhead)
      have hlt := hg.upper.lt_of_hasNode (hg.isPotentialNode hroot)
      obtain ⟨-, hreached⟩ := Search.explore_spec (s := (make g).search) none hg hlt (suits_make g)
      have hcovers : ((make g).search.explore g root none).coversMandatory g = true ↔
          ∀ m, g.isMandatoryNode m = true → g.upper.shape.Joins none root m := by
        simp only [coversMandatory_iff hg, hreached]
      have hanswer : entailment g =
          if !((make g).search.explore g root none).coversMandatory g then .violated
          else .ofInstantiated g.isInstantiated := by
        simp only [entailment, hhead, make, Bool.not_eq_true', ← Bool.not_eq_true, ite_not]
      refine .of_check _ hanswer hnonempty hsingle_iff.mpr ?_ ?_
      · rw [Bool.not_eq_true', ← Bool.not_eq_true, hcovers]
        exact fun hmissed H hH hconnected =>
          hmissed fun m hm => joins_of_isConnected hH hconnected hroot hm
      · rw [Bool.not_eq_false', hcovers]
        intro hjoined hsingle H hH a b ha hb
        obtain rfl := hH.eq_upper hg hsingle
        have hmandatory : ∀ v, g.isPotentialNode v = true → g.isMandatoryNode v = true :=
          fun _ hv => GraphVar.isMandatoryNode_of_isInstantiated hg hsingle hv
        exact (hjoined a (hmandatory a ha)).symm.trans (hjoined b (hmandatory b hb))

end Connectivity

/-! ### Neighbours and successors -/

namespace Channel

open ChannelDomains

variable {d : ChannelDomains} {i v : Nat}

/-- One instantiation of the domains is left. -/
structure Instantiated (d : ChannelDomains) : Prop where
  graph : d.graph.lower.shape = d.graph.upper.shape
  fixed : ∀ i < d.graph.order, ∃ v, (d.successor i).value? = some v

theorem isInstantiated_iff (hd : d.Valid) :
    (d.graph.isInstantiated && d.successors.all Values.isFixed) = true ↔ Instantiated d := by
  rw [Bool.and_eq_true, GraphVar.isInstantiated_iff hd.graph, Array.all_eq_true]
  have hget : ∀ i (hi : i < d.successors.size), d.successor i = d.successors[i] := by
    intro i hi
    simp [successor, hi]
  constructor
  · rintro ⟨hgraph, hfixed⟩
    refine ⟨hgraph, fun i hi => ?_⟩
    have hi' := hd.size_eq.symm ▸ hi
    have hone := hfixed i hi'
    rw [← hget, Values.isFixed, beq_iff_eq, Values.size_eq_one_iff (hd.successor i hi)] at hone
    obtain ⟨v, hv⟩ := hone
    exact ⟨v, (Values.value?_eq_some_iff (hd.successor i hi)).mpr hv⟩
  · intro h
    refine ⟨h.graph, fun i hi => ?_⟩
    have hi' := hd.size_eq ▸ hi
    obtain ⟨v, hv⟩ := h.fixed i hi'
    rw [Values.value?_eq_some_iff (hd.successor i hi')] at hv
    rw [← hget, Values.isFixed, beq_iff_eq, Values.size_eq_one_iff (hd.successor i hi')]
    exact ⟨v, hv⟩

theorem isViolatedAt_iff (hd : d.Valid) :
    isViolatedAt d i = true ↔
      (∃ v, (d.successor i).value? = some v ∧ d.isNeighbour i v = false) ∨
        ∃ j, d.graph.isMandatory i j = true ∧ d.allows i j = false ∧ d.allows j i = false := by
  simp only [isViolatedAt, Bool.or_eq_true, Option.any_eq_true, List.any_eq_true,
    Graph.mem_successors hd.graph.lower, Bool.and_eq_true, Bool.not_eq_true']
  rfl

/-- A fixed successor of an instantiation is its value. -/
theorem next_of_value? {H : Shape} {next : Nat → Nat} (hd : d.Valid) (hadmits : d.Admits H next)
    (hi : i < d.graph.order) (hv : (d.successor i).value? = some v) : next i = v :=
  ((Values.value?_eq_some_iff (hd.successor i hi)).mp hv (next i)).mp (hadmits.allows i hi)

theorem not_holds_of_isViolatedAt {H : Shape} {next : Nat → Nat} (hd : d.Valid)
    (hi : i < d.graph.order) (hviolated : isViolatedAt d i = true) (hadmits : d.Admits H next) :
    ¬ Holds d.graph.order H next := by
  intro hholds
  have hsolution : (H, next) ∈ solutions d := ⟨hadmits, hholds⟩
  obtain ⟨v, hv, hoff⟩ | ⟨j, hij, hnot, hnot'⟩ := (isViolatedAt_iff hd).mp hviolated
  · have hneighbour := isNeighbour_of_mem hd hsolution hi
    rw [next_of_value? hd hadmits hi hv] at hneighbour
    exact absurd (hoff.symm.trans hneighbour) (by simp)
  · have hallows := hadmits.allows i hi
    rw [next_of_not_allows hd hsolution hij hnot'] at hallows
    exact absurd (hnot.symm.trans hallows) (by simp)

theorem holds_of_instantiated {H : Shape} {next : Nat → Nat} (hd : d.Valid)
    (hsingle : Instantiated d) (hnone : ∀ i < d.graph.order, ¬ isViolatedAt d i = true)
    (hadmits : d.Admits H next) : Holds d.graph.order H next := by
  have hsingle' := (GraphVar.isInstantiated_iff hd.graph).mpr hsingle.graph
  have hH := hadmits.graph.eq_upper hd.graph hsingle'
  have hnext : ∀ i < d.graph.order, (d.successor i).value? = some (next i) := by
    intro i hi
    obtain ⟨v, hv⟩ := hsingle.fixed i hi
    rwa [next_of_value? hd hadmits hi hv]
  have hvalue : ∀ i < d.graph.order, ∀ j, d.allows i j = true → next i = j := fun i hi j hij =>
    (((Values.value?_eq_some_iff (hd.successor i hi)).mp (hnext i hi) j).mp hij).symm
  subst hH
  constructor
  · intro i hi
    by_contra hedge
    refine hnone i hi ((isViolatedAt_iff hd).mpr (.inl ⟨next i, hnext i hi, ?_⟩))
    have hnot : d.graph.isPotential i (next i) = false := Bool.eq_false_iff.mpr hedge
    simp [isNeighbour, hnot]
  · intro i j hij
    have hmandatory := GraphVar.isMandatory_of_isInstantiated hd.graph hsingle' hij
    obtain ⟨hi, hj⟩ := hd.lt_order hmandatory
    cases hij' : d.allows i j with
    | true => exact .inl (hvalue i hi j hij')
    | false =>
        cases hji : d.allows j i with
        | true => exact .inr (hvalue j hj i hji)
        | false =>
            exact absurd ((isViolatedAt_iff hd).mpr (.inr ⟨j, hmandatory, hij', hji⟩)) (hnone i hi)

theorem correct_entailment (hd : d.Valid) :
    (entailment d).Correct {x : Shape × (Nat → Nat) | d.Admits x.1 x.2}
      (fun x => Holds d.graph.order x.1 x.2) (Instantiated d) := by
  have hnonempty : ∃ x : Shape × (Nat → Nat), d.Admits x.1 x.2 := by
    have hvalue : ∀ i, ∃ v, i < d.graph.order → d.allows i v = true := by
      intro i
      by_cases hi : i < d.graph.order
      · obtain ⟨v, hv⟩ := (hd.successor i hi).nonempty
        exact ⟨v, fun _ => hv⟩
      · exact ⟨0, fun hi' => absurd hi' hi⟩
    choose next hnext using hvalue
    exact ⟨(_, next), hd.graph.admits_lower, hnext⟩
  refine .of_check _ rfl hnonempty (isInstantiated_iff hd).mpr ?_ ?_
  · intro hviolated x hx
    obtain ⟨i, hi, hat⟩ := List.any_eq_true.mp hviolated
    exact not_holds_of_isViolatedAt hd (List.mem_range.mp hi) hat hx
  · intro hcheck hsingle x hx
    refine holds_of_instantiated hd ((isInstantiated_iff hd).mp hsingle) (fun i hi hat => ?_) hx
    rw [← Bool.not_eq_true] at hcheck
    exact hcheck (List.any_eq_true.mpr ⟨i, List.mem_range.mpr hi, hat⟩)

end Channel

/-! ### All propagators -/

/-- The constraint on the graphs of the domain. -/
def Propagator.Holds : Propagator → Shape → Prop
  | transitivity _, H => H.IsTransitive
  | connectivity _, H => H.IsConnected
  | degree limit, H => limit.Bounded H

/-- The answer of every propagator is right: a violated constraint has no instantiation that
satisfies it, a satisfied one has no other, and the only instantiation of a domain is judged by
whether it satisfies the constraint. -/
theorem entailment_correct :
    (∀ (p : Propagator) (g : GraphVar), g.Reachable →
      (p.entailment g).Correct {H | g.Admits H} p.Holds (g.lower.shape = g.upper.shape)) ∧
      ∀ d : ChannelDomains, d.WellPosed →
        (Channel.entailment d).Correct {x : Shape × (Nat → Nat) | d.Admits x.1 x.2}
          (fun x => Channel.Holds d.graph.order x.1 x.2) (Channel.Instantiated d) := by
  refine ⟨fun p g hg => ?_, fun d hd => Channel.correct_entailment hd.valid⟩
  cases p with
  | transitivity _ => exact Transitivity.correct_entailment hg.valid
  | connectivity _ => exact Connectivity.correct_entailment hg.valid
  | degree limit => exact limit.correct_entailment hg.valid

/-- A path is connected and not transitive, and its ends can both lead to its middle. -/
theorem entailment_correct_path :
    let g := (GraphVar.Mutation.removeEdge 0 2).run.after
      ((GraphVar.Mutation.enforceEdge 1 2).run.after
        ((GraphVar.Mutation.enforceEdge 0 1).run.after (GraphVar.unconstrained 3 false)))
    let values (l : List Nat) : Values :=
      { members := l.foldl SparseSet.insert (SparseSet.empty 3), trail := {} }
    let d : ChannelDomains := { graph := g, successors := #[values [1], values [0], values [1]] }
    g.Reachable ∧ g.lower.shape = g.upper.shape ∧ ¬ g.lower.shape.IsTransitive ∧
      g.lower.shape.IsConnected ∧ d.WellPosed ∧ Channel.Instantiated d ∧
      ∃ next, d.Admits g.lower.shape next ∧ Channel.Holds 3 g.lower.shape next := by
  intro g values d
  have hg : g.Reachable := .mutate _ (.mutate _ (.mutate _ (.unconstrained 3 false)))
  have hd : d.WellPosed := by
    refine ⟨hg, by decide +kernel, by decide +kernel, fun v hv => ?_⟩
    have hmem : v = values [1] ∨ v = values [0] ∨ v = values [1] := by simpa [d] using hv
    obtain rfl | rfl | rfl := hmem
    · exact .make (show Values.make 3 [1] = .ok (values [1]) from rfl)
    · exact .make (show Values.make 3 [0] = .ok (values [0]) from rfl)
    · exact .make (show Values.make 3 [1] = .ok (values [1]) from rfl)
  obtain ⟨hgraphs, hchannel⟩ := entailment_correct
  have htransitive := hgraphs (.transitivity {}) g hg
  have hconnected := hgraphs (.connectivity (Connectivity.make g)) g hg
  have hlower := hg.valid.admits_lower
  have hsingle : Channel.Instantiated d :=
    (Channel.isInstantiated_iff hd.valid).mp (by decide +kernel)
  have hsatisfied : Channel.entailment d = .satisfied := by decide +kernel
  obtain ⟨⟨⟨H, next⟩, hadmits⟩, -⟩ := (hchannel d hd).judged hsingle
  have hH : H = g.lower.shape := by
    have hupper := hadmits.graph.eq_upper hg.valid
      ((GraphVar.isInstantiated_iff hg.valid).mpr hsingle.graph)
    exact hupper.trans hsingle.graph.symm
  subst hH
  exact ⟨hg, hsingle.graph, htransitive.violated (by decide +kernel) _ hlower,
    hconnected.satisfied (by decide +kernel) _ hlower, hd, hsingle, next, hadmits,
    (hchannel d hd).satisfied hsatisfied _ hadmits⟩

end GraphInterval
