import GraphInterval.Proofs.GraphVar.Reachable
import GraphInterval.Proofs.Transitivity.Filter

/-!
# How long filtering takes

Filtering drains two stacks in nested loops that have no bound of their own,
and the consequences of an edge refill them.  A mutation answers that it
changed something only when it decides an edge, and an edge that is decided
stays decided.  So every edge is put on the stacks at most once, whatever they
hold at first, and the loops end after as many turns as there were waiting and
undecided edges at most.
-/

namespace GraphInterval

namespace GraphVar

variable {g g' g'' : GraphVar} {edges edges' : List Edge} {a b x y : ℕ}

/-! ### Undecided edges -/

/-- Whether an edge is possible and not mandatory. -/
def isUndecided (g : GraphVar) (a b : ℕ) : Bool := g.isPotential a b && !g.isMandatory a b

/-- The undecided edges; those of an undirected graph are listed in increasing order. -/
def undecidedEdges (g : GraphVar) : Finset Edge :=
  (Finset.range g.order ×ˢ Finset.range g.order).filter fun e =>
    g.isUndecided e.1 e.2 = true ∧ (g.directed = true ∨ e.1 ≤ e.2)

theorem undecidedEdges_eq (hg : g.Valid) :
    g.undecidedEdges = g.upper.edgeSet \ g.lower.edgeSet := by
  ext e
  rw [Finset.mem_sdiff, Graph.mem_edgeSet hg.upper, Graph.mem_edgeSet hg.lower, hg.directed_eq]
  simp only [undecidedEdges, Finset.mem_filter, Finset.mem_product, Finset.mem_range, isUndecided,
    Bool.and_eq_true, Bool.not_eq_true', Bool.eq_false_iff]
  constructor
  · intro h
    exact ⟨⟨h.2.1.1, h.2.2⟩, fun h' => h.2.1.2 h'.1⟩
  · intro h
    exact ⟨hg.lt_order h.1.1, ⟨h.1.1, fun hM => h.2 ⟨hM, h.1.2⟩⟩, h.1.2⟩

theorem card_undecidedEdges (hg : g.Valid) : g.undecidedEdges.card = g.numUndecided := by
  have hsub : g.lower.edgeSet ⊆ g.upper.edgeSet := by
    intro e he
    rw [Graph.mem_edgeSet hg.lower, hg.directed_eq] at he
    rw [Graph.mem_edgeSet hg.upper]
    exact ⟨hg.isPotential he.1, he.2⟩
  rw [undecidedEdges_eq hg, Finset.card_sdiff_of_subset hsub, ← Graph.numEdges_eq hg.upper,
    ← Graph.numEdges_eq hg.lower, numUndecided]

/-- Both orders of an undirected edge are undecided or none. -/
theorem Valid.isUndecided_sameEdge (hg : g.Valid) (h : Shape.SameEdge g.directed a b x y) :
    g.isUndecided x y = g.isUndecided a b := by
  rw [isUndecided, isUndecided, hg.isPotential_sameEdge h, hg.isMandatory_sameEdge h]

/-! ### Deciding every edge once -/

/-- How often a list holds an edge, in either of its orders. -/
def occurrences (directed : Bool) (edges : List Edge) (a b : ℕ) : ℕ :=
  edges.countP fun e => decide (Shape.SameEdge directed e.1 e.2 a b)

theorem occurrences_append (d : Bool) (edges edges' : List Edge) (a b : ℕ) :
    occurrences d (edges ++ edges') a b = occurrences d edges a b + occurrences d edges' a b :=
  List.countP_append

/-- Exactly the edges of the list were decided, each of them once. -/
structure DecidesOnce (g : GraphVar) (edges : List Edge) (g' : GraphVar) : Prop where
  narrows : g.Narrows g'
  occurrences_add : ∀ a b, occurrences g.directed edges a b + (g'.isUndecided a b).toNat =
    (g.isUndecided a b).toNat
  length_add : edges.length + g'.numUndecided = g.numUndecided

theorem DecidesOnce.refl (g : GraphVar) : DecidesOnce g [] g := by
  constructor
  · exact .refl
  · intro a b
    exact Nat.zero_add _
  · exact Nat.zero_add _

theorem DecidesOnce.trans (hg : g.Valid) (h : DecidesOnce g edges g')
    (h' : DecidesOnce g' edges' g'') : DecidesOnce g (edges ++ edges') g'' := by
  constructor
  · exact h.narrows.trans h'.narrows
  · intro a b
    have hsecond := h'.occurrences_add a b
    rw [h.narrows.directed hg] at hsecond
    rw [occurrences_append, Nat.add_assoc, hsecond, h.occurrences_add]
  · rw [List.length_append, Nat.add_assoc, h'.length_add, h.length_add]

/-- The order in which the edges are listed does not matter. -/
theorem DecidesOnce.perm (h : DecidesOnce g edges g') (hperm : edges.Perm edges') :
    DecidesOnce g edges' g' := by
  constructor
  · exact h.narrows
  · intro a b
    rw [occurrences, ← hperm.countP_eq]
    exact h.occurrences_add a b
  · rw [← hperm.length_eq]
    exact h.length_add

theorem DecidesOnce.single (hg : g.Valid) (hnarrows : g.Narrows g')
    (hundecided : g.isUndecided a b = true)
    (hrest : ∀ x y, g'.isUndecided x y =
      (g.isUndecided x y && !decide (Shape.SameEdge g.directed a b x y)))
    (hcount : g'.numUndecided + 1 = g.numUndecided) : DecidesOnce g [(a, b)] g' := by
  constructor
  · exact hnarrows
  · intro x y
    rw [hrest, occurrences, List.countP_singleton]
    by_cases hsame : Shape.SameEdge g.directed a b x y
    · rw [hg.isUndecided_sameEdge hsame, hundecided]
      simp [hsame]
    · simp [hsame]
  · rw [← hcount]
    exact Nat.add_comm _ _

/-- The list with an edge if it was decided. -/
theorem enforceEdge_decides (hg : g.Valid) (a b : ℕ) :
    (enforceEdge a b).wp (fun changed g' => g.DecidesOnce (if changed then [(a, b)] else []) g')
      (fun failure g' => failure = .wipeout ∧ g' = g) g := by
  refine Attempt.wp_mono (enforceEdge_wp hg a b) ?_ fun _ _ h => ⟨h.1, h.2.1⟩
  intro changed g' h
  obtain ⟨hnarrows, hM, -, hchanged, hsame⟩ := h
  cases changed with
  | false =>
      rw [hsame rfl]
      exact .refl g
  | true =>
      obtain ⟨hnot, hupper, hcount, hedge⟩ := hchanged rfl
      have hvalid := hnarrows.valid hg
      have hpotential : ∀ x y, g'.isPotential x y = g.isPotential x y := fun x y => by
        rw [isPotential, hupper, isPotential]
      apply DecidesOnce.single hg hnarrows
      · rw [isUndecided, hnot, ← hpotential, hvalid.isPotential hM]
        rfl
      · intro x y
        have hiff : g'.isMandatory x y =
            (decide (Shape.SameEdge g.directed a b x y) || g.isMandatory x y) := by
          rw [Bool.eq_iff_iff, hedge, Bool.or_eq_true, decide_eq_true_iff]
        rw [isUndecided, hpotential, hiff, Bool.not_or, isUndecided, Bool.and_assoc,
          Bool.and_comm (!decide _)]
      · have hle := hvalid.numEdges_le
        rw [hupper, hcount] at hle
        rw [numUndecided, numUndecided, hupper, hcount]
        omega

theorem removeEdge_decides (hg : g.Valid) (a b : ℕ) :
    (removeEdge a b).wp (fun changed g' => g.DecidesOnce (if changed then [(a, b)] else []) g')
      (fun failure g' => failure = .wipeout ∧ g' = g) g := by
  refine Attempt.wp_mono (removeEdge_wp hg a b) ?_ fun _ _ h => ⟨h.1, h.2.1⟩
  intro changed g' h
  obtain ⟨hnarrows, hP, hlower, -, hchanged, hsame⟩ := h
  cases changed with
  | false =>
      rw [hsame rfl]
      exact .refl g
  | true =>
      obtain ⟨hpotential, hcount, hedge⟩ := hchanged rfl
      have hvalid := hnarrows.valid hg
      have hmandatory : ∀ x y, g'.isMandatory x y = g.isMandatory x y := fun x y => by
        rw [isMandatory, hlower, isMandatory]
      have hnot : g.isMandatory a b = false := by
        rw [← hmandatory, Bool.eq_false_iff]
        intro hM
        exact absurd (hP.symm.trans (hvalid.isPotential hM)) (by simp)
      apply DecidesOnce.single hg hnarrows
      · rw [isUndecided, hpotential, hnot]
        rfl
      · intro x y
        have hiff : g'.isPotential x y =
            (!decide (Shape.SameEdge g.directed a b x y) && g.isPotential x y) := by
          rw [Bool.eq_iff_iff, hedge, Bool.and_eq_true, Bool.not_eq_true', decide_eq_false_iff_not]
        rw [isUndecided, hmandatory, hiff, isUndecided, Bool.and_assoc, Bool.and_comm]
      · have hle := hvalid.numEdges_le
        rw [hlower] at hle
        rw [numUndecided, numUndecided, hlower]
        omega

end GraphVar

namespace Transitivity

variable {s s' popped : State}

/-! ### Invariants of the consequences of an edge -/

section Consequences

variable {I : State → Prop} {E : Failure → State → Prop}

/-- What single decisions keep, a conclusion keeps. -/
theorem conclude_keeps (henforce : ∀ a b, Attempt.Keeps I E (enforce a b))
    (hremove : ∀ a b, Attempt.Keeps I E (remove a b)) (other third : Edge) :
    Attempt.Keeps I E (conclude other third) := by
  apply Attempt.keeps_get.bind
  intro s
  exact .ite (henforce third.1 third.2) (.ite (hremove other.1 other.2) (Attempt.keeps_pure _))

/-- What single decisions keep, the consequences of a mandatory edge keep. -/
theorem edgeEnforced_keeps (hbuffer : ∀ s l, I s → I (s.holding incidentBuffer l))
    (henforce : ∀ a b, Attempt.Keeps I E (enforce a b))
    (hremove : ∀ a b, Attempt.Keeps I E (remove a b)) (a b : ℕ) :
    Attempt.Keeps I E (edgeEnforced a b) := by
  unfold edgeEnforced
  apply Attempt.Keeps.ite
  · exact Attempt.keeps_pure ()
  have hconclude := conclude_keeps henforce hremove
  apply (Posted.keeps_visitEach hbuffer fun c =>
    (Attempt.keeps_pure ()).ite (hconclude (b, c) (a, c))).bind
  intro _
  exact Posted.keeps_visitEach hbuffer fun c =>
    (Attempt.keeps_pure ()).ite (hconclude (c, a) (c, b))

theorem edgeRemoved_keeps (hbuffer : ∀ s l, I s → I (s.holding incidentBuffer l))
    (hremove : ∀ a b, Attempt.Keeps I E (remove a b)) (a b : ℕ) :
    Attempt.Keeps I E (edgeRemoved a b) := by
  unfold edgeRemoved
  apply Attempt.Keeps.ite
  · exact Attempt.keeps_pure ()
  apply (Posted.keeps_visitEach hbuffer fun c => hremove c b).bind
  intro _
  exact Posted.keeps_visitEach hbuffer fun c => hremove a c

end Consequences

/-! ### The loops without a bound -/

inductive Stack where
  | enforced
  | removed

/-- Takes the last edge from a stack. -/
def pop : Stack → State → Option (Edge × State)
  | .enforced, s =>
      match s.propagator.enforced with
      | [] => none
      | entry :: rest =>
          some (entry, { s with propagator := { s.propagator with enforced := rest } })
  | .removed, s =>
      match s.propagator.removed with
      | [] => none
      | entry :: rest =>
          some (entry, { s with propagator := { s.propagator with removed := rest } })

/-- Draws the consequences of an edge from a stack. -/
def draw : Stack → Edge → Run Unit
  | .enforced, (a, b) => edgeEnforced a b
  | .removed, (a, b) => edgeRemoved a b

/-- One edge is taken from its stack, and others are put on the stacks. -/
structure Turn where
  entry : Edge
  /-- The edges that were put on the stack of mandatory ones, the last one first. -/
  enforced : List Edge
  /-- The edges that were put on the stack of removed ones, the last one first. -/
  removed : List Edge

def Turn.pushed (turn : Turn) : List Edge := turn.enforced ++ turn.removed

/-- What the stacks hold more. -/
structure Turn.Pushes (turn : Turn) (s s' : State) : Prop where
  enforced_eq : s'.propagator.enforced = turn.enforced ++ s.propagator.enforced
  removed_eq : s'.propagator.removed = turn.removed ++ s.propagator.removed

/-- The turns and the result of draining: first the mandatory edges as long as there are any, then
the removed ones, and all over again if mandatory edges wait by then.  A failure ends it. -/
inductive Drains : Stack → State → List Turn → EStateM.Result Failure State Unit → Prop where
  | next {stack : Stack} {s popped s' : State} {turn : Turn} {turns : List Turn}
      {result : EStateM.Result Failure State Unit} :
      pop stack s = some (turn.entry, popped) → draw stack turn.entry popped = .ok () s' →
      turn.Pushes popped s' → Drains stack s' turns result →
      Drains stack s (turn :: turns) result
  | fail {stack : Stack} {s popped s' : State} {turn : Turn} {failure : Failure} :
      pop stack s = some (turn.entry, popped) →
      draw stack turn.entry popped = .error failure s' → turn.Pushes popped s' →
      Drains stack s [turn] (.error failure s')
  | switch {s : State} {turns : List Turn} {result : EStateM.Result Failure State Unit} :
      pop .enforced s = none → Drains .removed s turns result → Drains .enforced s turns result
  | again {s : State} {turns : List Turn} {result : EStateM.Result Failure State Unit} :
      pop .removed s = none → pop .enforced s ≠ none → Drains .enforced s turns result →
      Drains .removed s turns result
  | done {s : State} :
      pop .removed s = none → pop .enforced s = none → Drains .removed s [] (.ok () s)

theorem pop_enforced_eq_none : pop .enforced s = none ↔ s.propagator.enforced = [] := by
  cases h : s.propagator.enforced <;> simp [pop, h]

theorem pop_removed_eq_none : pop .removed s = none ↔ s.propagator.removed = [] := by
  cases h : s.propagator.removed <;> simp [pop, h]

theorem pop_enforced_eq_some {entry : Edge} (h : pop .enforced s = some (entry, popped)) :
    ∃ rest, s.propagator.enforced = entry :: rest ∧
      popped = { s with propagator := { s.propagator with enforced := rest } } := by
  cases hs : s.propagator.enforced with
  | nil => simp [pop, hs] at h
  | cons e rest =>
      obtain ⟨rfl, rfl⟩ : e = entry ∧ _ = popped := by simpa [pop, hs] using h
      exact ⟨rest, rfl, rfl⟩

theorem pop_removed_eq_some {entry : Edge} (h : pop .removed s = some (entry, popped)) :
    ∃ rest, s.propagator.removed = entry :: rest ∧
      popped = { s with propagator := { s.propagator with removed := rest } } := by
  cases hs : s.propagator.removed with
  | nil => simp [pop, hs] at h
  | cons e rest =>
      obtain ⟨rfl, rfl⟩ : e = entry ∧ _ = popped := by simpa [pop, hs] using h
      exact ⟨rest, rfl, rfl⟩

/-- Taking an edge leaves the graph and one edge less to deal with. -/
theorem pop_domains {stack : Stack} {entry : Edge} (h : pop stack s = some (entry, popped)) :
    popped.domains = s.domains ∧ budget popped + 1 = budget s := by
  cases stack with
  | enforced =>
      obtain ⟨rest, hs, rfl⟩ := pop_enforced_eq_some h
      simp only [budget, hs, List.length_cons, true_and]
      omega
  | removed =>
      obtain ⟨rest, hs, rfl⟩ := pop_removed_eq_some h
      simp only [budget, hs, List.length_cons, true_and]
      omega

/-! ### One turn -/

/-- Edges were put on the stacks right when they were decided. -/
def Grown (s s' : State) : Prop :=
  ∃ enforced removed, s'.propagator.enforced = enforced ++ s.propagator.enforced ∧
    s'.propagator.removed = removed ++ s.propagator.removed ∧
    s.domains.DecidesOnce (enforced ++ removed) s'.domains

/-- The list of endpoints is of no concern. -/
theorem Grown.holding (h : Grown s s') (l : List ℕ) : Grown s (s'.holding incidentBuffer l) := h

theorem Grown.refl (s : State) : Grown s s := ⟨[], [], rfl, rfl, .refl _⟩

theorem enforce_grown (hs : s.domains.Valid) (a b : ℕ) :
    Attempt.Keeps (Grown s) (fun failure t => failure = .wipeout ∧ Grown s t) (enforce a b) := by
  intro t h
  obtain ⟨enforced, removed, henforced, hremoved, hdecides⟩ := h
  rw [enforce, Attempt.wp_bind, Posted.onDomains, Attempt.wp_within]
  refine Attempt.wp_mono (GraphVar.enforceEdge_decides (hdecides.narrows.valid hs) a b) ?_ ?_
  · intro changed g' hstep
    have hall := hdecides.trans hs hstep
    cases changed with
    | false => exact ⟨enforced, removed, henforced, hremoved, by simpa using hall⟩
    | true =>
        refine ⟨(a, b) :: enforced, removed, congrArg _ henforced, hremoved, hall.perm ?_⟩
        exact List.perm_append_singleton (a, b) (enforced ++ removed)
  · intro failure g' hfailed
    obtain ⟨hfailure, rfl⟩ := hfailed
    exact ⟨hfailure, enforced, removed, henforced, hremoved, hdecides⟩

theorem remove_grown (hs : s.domains.Valid) (a b : ℕ) :
    Attempt.Keeps (Grown s) (fun failure t => failure = .wipeout ∧ Grown s t) (remove a b) := by
  intro t h
  obtain ⟨enforced, removed, henforced, hremoved, hdecides⟩ := h
  rw [remove, Attempt.wp_bind, Posted.onDomains, Attempt.wp_within]
  refine Attempt.wp_mono (GraphVar.removeEdge_decides (hdecides.narrows.valid hs) a b) ?_ ?_
  · intro changed g' hstep
    have hall := hdecides.trans hs hstep
    cases changed with
    | false => exact ⟨enforced, removed, henforced, hremoved, by simpa using hall⟩
    | true =>
        refine ⟨enforced, (a, b) :: removed, henforced, congrArg _ hremoved, hall.perm ?_⟩
        calc
          ((enforced ++ removed) ++ [(a, b)]).Perm ((a, b) :: (enforced ++ removed)) :=
            List.perm_append_singleton (a, b) (enforced ++ removed)
          _ |>.Perm (enforced ++ (a, b) :: removed) := List.perm_middle.symm
  · intro failure g' hfailed
    obtain ⟨hfailure, rfl⟩ := hfailed
    exact ⟨hfailure, enforced, removed, henforced, hremoved, hdecides⟩

theorem draw_grown (hs : s.domains.Valid) (stack : Stack) (entry : Edge) :
    (draw stack entry).wp (fun _ s' => Grown s s')
      (fun failure s' => failure = .wipeout ∧ Grown s s') s := by
  cases stack with
  | enforced =>
      exact edgeEnforced_keeps (fun _ l h => h.holding l) (enforce_grown hs) (remove_grown hs) _ _ s
        (.refl s)
  | removed =>
      exact edgeRemoved_keeps (fun _ l h => h.holding l) (remove_grown hs) _ _ s (.refl s)

/-- The consequences of a removed edge are removals, which leave the other stack alone. -/
theorem draw_removed_enforced (entry : Edge) (s : State) :
    (draw .removed entry).wp (fun _ s' => s'.propagator.enforced = s.propagator.enforced)
      (fun _ _ => True) s := by
  have hremove : ∀ a b, Attempt.Keeps
      (fun t : State => t.propagator.enforced = s.propagator.enforced) (fun _ _ => True)
      (remove a b) := by
    intro a b t ht
    rw [remove, Attempt.wp_bind, Posted.onDomains, Attempt.wp_within]
    refine Attempt.wp_mono (Attempt.wp_trivial (GraphVar.removeEdge a b) t.domains) ?_
      fun _ _ _ => trivial
    intro changed g' _
    cases changed with
    | false => exact ht
    | true => exact ht
  exact edgeRemoved_keeps (fun _ _ h => h) hremove entry.1 entry.2 s rfl

/-! ### All turns -/

theorem Grown.budget_eq (h : Grown s s') : budget s' = budget s := by
  obtain ⟨enforced, removed, henforced, hremoved, hdecides⟩ := h
  have hlength := hdecides.length_add
  simp only [budget, henforced, hremoved, List.length_append] at hlength ⊢
  omega

/-- The edges of a turn are those that were decided. -/
theorem Turn.Pushes.decides {turn : Turn} (h : turn.Pushes s s') (hgrown : Grown s s') :
    s.domains.DecidesOnce turn.pushed s'.domains := by
  obtain ⟨enforced, removed, henforced, hremoved, hdecides⟩ := hgrown
  have hfirst := List.append_cancel_right (h.enforced_eq.symm.trans henforced)
  have hsecond := List.append_cancel_right (h.removed_eq.symm.trans hremoved)
  rw [Turn.pushed, hfirst, hsecond]
  exact hdecides

theorem Grown.pushes (h : Grown s s') (entry : Edge) :
    ∃ turn : Turn, turn.entry = entry ∧ turn.Pushes s s' := by
  obtain ⟨enforced, removed, henforced, hremoved, -⟩ := h
  exact ⟨⟨entry, enforced, removed⟩, rfl, henforced, hremoved⟩

/-- The state in which the loops end. -/
def lastState : EStateM.Result Failure State Unit → State
  | .ok _ s => s
  | .error _ s => s

/-- Every turn takes one edge from the waiting and the undecided ones, and the turns together
decide what they put on the stacks. -/
theorem Drains.decides_once {stack : Stack} {turns : List Turn}
    {result : EStateM.Result Failure State Unit} (h : Drains stack s turns result)
    (hs : s.domains.Valid) :
    s.domains.DecidesOnce (turns.flatMap Turn.pushed) (lastState result).domains ∧
      turns.length + budget (lastState result) = budget s ∧
      ∀ failure s', result = .error failure s' → failure = .wipeout := by
  induction h with
  | @next stack s popped s' turn turns result hpop hdraw hpushes hrest ih =>
      obtain ⟨hdomains, hbudget⟩ := pop_domains hpop
      rw [← hdomains] at hs ⊢
      have hgrown : Grown popped s' :=
        Attempt.of_wp_ok (Q := fun _ t => Grown popped t) (draw_grown hs stack turn.entry) hdraw
      have hturn := hpushes.decides hgrown
      obtain ⟨hturns, hlength, hfailed⟩ := ih (hturn.narrows.valid hs)
      have hsame := hgrown.budget_eq
      refine ⟨hturn.trans hs hturns, ?_, hfailed⟩
      rw [List.length_cons]
      omega
  | @fail stack s popped s' turn failure hpop hdraw hpushes =>
      obtain ⟨hdomains, hbudget⟩ := pop_domains hpop
      rw [← hdomains] at hs ⊢
      obtain ⟨hfailure, hgrown⟩ := Attempt.of_wp_error
        (E := fun f t => f = .wipeout ∧ Grown popped t) (draw_grown hs stack turn.entry) hdraw
      have hsame := hgrown.budget_eq
      have hturn := hpushes.decides hgrown
      rw [← List.append_nil turn.pushed] at hturn
      refine ⟨hturn, ?_, ?_⟩
      · rw [List.length_singleton, lastState]
        omega
      · intro failure' t ht
        obtain ⟨rfl, -⟩ := EStateM.Result.error.inj ht
        exact hfailure
  | switch _ _ ih => exact ih hs
  | again _ _ _ ih => exact ih hs
  | done => exact ⟨.refl _, Nat.zero_add _, fun _ _ h => nomatch h⟩

/-- No mandatory edge waits after the turn of a removed one, if none did before. -/
theorem pop_enforced_of_draw {entry : Edge} (hnone : pop .enforced s = none)
    (hpop : pop .removed s = some (entry, popped))
    (hdraw : draw .removed entry popped = .ok () s') : pop .enforced s' = none := by
  have hkept := Attempt.of_wp_ok (draw_removed_enforced entry popped) hdraw
  obtain ⟨rest, -, rfl⟩ := pop_removed_eq_some hpop
  rw [pop_enforced_eq_none] at hnone ⊢
  exact hkept.trans hnone

/-- Where no mandatory edge waits, the inner loop for them ends at once. -/
theorem Drains.removed {turns : List Turn} {result : EStateM.Result Failure State Unit}
    (h : Drains .enforced s turns result) (hnone : pop .enforced s = none) :
    Drains .removed s turns result := by
  cases h with
  | next hpop => exact absurd (hnone.symm.trans hpop) (by simp)
  | fail hpop => exact absurd (hnone.symm.trans hpop) (by simp)
  | switch _ hrest => exact hrest

/-! ### The bound is never met -/

theorem processNext_enforced {entry : Edge} (h : pop .enforced s = some (entry, popped)) :
    processNext s = (draw .enforced entry >>= fun _ => pure true) popped := by
  obtain ⟨rest, hs, rfl⟩ := pop_enforced_eq_some h
  refine (Attempt.bind_eq_of_ok (x := get) rfl).trans ?_
  rw [hs]
  rfl

theorem processNext_removed {entry : Edge} (hnone : pop .enforced s = none)
    (h : pop .removed s = some (entry, popped)) :
    processNext s = (draw .removed entry >>= fun _ => pure true) popped := by
  obtain ⟨rest, hs, rfl⟩ := pop_removed_eq_some h
  refine (Attempt.bind_eq_of_ok (x := get) rfl).trans ?_
  conv_lhs => rw [hs, pop_enforced_eq_none.mp hnone]
  rfl

theorem processNext_none (hnone : pop .enforced s = none) (hnone' : pop .removed s = none) :
    processNext s = .ok false s := by
  refine (Attempt.bind_eq_of_ok (x := get) rfl).trans ?_
  rw [pop_enforced_eq_none.mp hnone, pop_removed_eq_none.mp hnone']
  rfl

/-- A step of the loop is a turn, and the rest of the loop starts from where it ends. -/
theorem repeatWhile_of_draw (bound : ℕ) {stack : Stack} {entry : Edge}
    (h : processNext s = (draw stack entry >>= fun _ => pure true) popped) :
    repeatWhile processNext (bound + 1) s =
      match draw stack entry popped with
      | .ok _ s' => repeatWhile processNext bound s'
      | .error failure s' => .error failure s' := by
  cases hdraw : draw stack entry popped with
  | ok _ s' =>
      have hstep : processNext s = .ok true s' := h.trans (Attempt.bind_eq_of_ok hdraw)
      exact Attempt.bind_eq_of_ok hstep
  | error failure s' =>
      have hstep : processNext s = .error failure s' := h.trans (Attempt.bind_eq_of_error hdraw)
      exact Attempt.bind_eq_of_error hstep

/-- A turn comes before the turns from where it ends, unless it fails. -/
theorem drains_turn {stack : Stack} {entry : Edge} {bound : ℕ} (hs : s.domains.Valid)
    (hbound : budget s ≤ bound + 1) (hpop : pop stack s = some (entry, popped))
    (hrest : ∀ s', draw stack entry popped = .ok () s' → s'.domains.Valid → budget s' ≤ bound →
      ∃ turns, Drains stack s' turns (repeatWhile processNext bound s')) :
    ∃ turns, Drains stack s turns
      (match draw stack entry popped with
      | .ok _ s' => repeatWhile processNext bound s'
      | .error failure s' => .error failure s') := by
  obtain ⟨hdomains, hbudget⟩ := pop_domains hpop
  rw [← hdomains] at hs
  have hdraw := draw_grown hs stack entry
  unfold Attempt.wp at hdraw
  cases hresult : draw stack entry popped with
  | ok _ s' =>
      rw [hresult] at hdraw
      have hgrown : Grown popped s' := hdraw
      obtain ⟨turn, rfl, hpushes⟩ := hgrown.pushes entry
      have hnext : budget s' ≤ bound := by
        rw [hgrown.budget_eq]
        omega
      have hvalid := (hpushes.decides hgrown).narrows.valid hs
      obtain ⟨turns, hturns⟩ := hrest s' hresult hvalid hnext
      exact ⟨turn :: turns, .next hpop hresult hpushes hturns⟩
  | error failure s' =>
      rw [hresult] at hdraw
      have hgrown : Grown popped s' := hdraw.2
      obtain ⟨turn, rfl, hpushes⟩ := hgrown.pushes entry
      exact ⟨[turn], .fail hpop hresult hpushes⟩

/-- A bound that is large enough plays no role: the bounded loop has the turns and the result of
the loops without a bound. -/
theorem repeatWhile_drains (bound : ℕ) (hs : s.domains.Valid) (hbound : budget s ≤ bound) :
    ∃ turns, Drains .enforced s turns (repeatWhile processNext bound s) := by
  induction bound generalizing s with
  | zero =>
      have hnone : pop .enforced s = none := by
        rw [pop_enforced_eq_none, ← List.length_eq_zero_iff]
        unfold budget at hbound
        omega
      have hnone' : pop .removed s = none := by
        rw [pop_removed_eq_none, ← List.length_eq_zero_iff]
        unfold budget at hbound
        omega
      exact ⟨[], .switch hnone (.done hnone' hnone)⟩
  | succ bound ih =>
      cases hpop : pop .enforced s with
      | some taken =>
          obtain ⟨entry, popped⟩ := taken
          rw [repeatWhile_of_draw bound (processNext_enforced hpop)]
          exact drains_turn hs hbound hpop fun s' _ hs' hbound' => ih hs' hbound'
      | none =>
          cases hpop' : pop .removed s with
          | some taken =>
              obtain ⟨entry, popped⟩ := taken
              rw [repeatWhile_of_draw bound (processNext_removed hpop hpop')]
              have hrest : ∀ s', draw .removed entry popped = .ok () s' → s'.domains.Valid →
                  budget s' ≤ bound →
                  ∃ turns, Drains .removed s' turns (repeatWhile processNext bound s') := by
                intro s' hdraw hs' hbound'
                obtain ⟨turns, hturns⟩ := ih hs' hbound'
                exact ⟨turns, hturns.removed (pop_enforced_of_draw hpop hpop' hdraw)⟩
              obtain ⟨turns, hturns⟩ := drains_turn hs hbound hpop' hrest
              exact ⟨turns, .switch hpop hturns⟩
          | none =>
              have hlast : repeatWhile processNext (bound + 1) s = .ok () s :=
                Attempt.bind_eq_of_ok (processNext_none hpop hpop')
              exact ⟨[], hlast ▸ .switch hpop (.done hpop' hpop)⟩

/-- On every reachable variable and from any stacks, filtering ends with the result of the loops
without a bound.  In their turns an edge that is undecided at first is put on one of the stacks at
most once, and no other edge is; so there are at most as many turns as edges that wait at first or
are undecided. -/
theorem filter_terminates {g : GraphVar} (hg : g.Reachable) (t : Transitivity) :
    ∃ turns, Drains .enforced ⟨t, g⟩ turns (filter ⟨t, g⟩) ∧
      (∀ a b, GraphVar.occurrences g.directed (turns.flatMap Turn.pushed) a b ≤
        (g.isUndecided a b).toNat) ∧
      turns.length ≤ t.enforced.length + t.removed.length + g.undecidedEdges.card ∧
      ∀ failure s, filter ⟨t, g⟩ = .error failure s → failure = .wipeout := by
  have hvalid := hg.valid
  obtain ⟨turns, hturns⟩ := repeatWhile_drains (s := ⟨t, g⟩) _ hvalid le_rfl
  obtain ⟨hdecides, hlength, hfailure⟩ := hturns.decides_once hvalid
  refine ⟨turns, hturns, fun a b => ?_, ?_, hfailure⟩
  · have hcount := hdecides.occurrences_add a b
    exact (Nat.le_add_right _ _).trans_eq hcount
  · have hbudget : budget ⟨t, g⟩ =
        t.enforced.length + t.removed.length + g.undecidedEdges.card := by
      rw [GraphVar.card_undecidedEdges hvalid, budget]
    rw [← hbudget, ← hlength]
    exact Nat.le_add_right _ _

/-- Two of three nodes lie on a cycle of mandatory edges, and one of them has a mandatory loop. -/
def cycleWithLoop : GraphVar :=
  { lower := (((Graph.empty 3 true).addEdge 0 1).addEdge 1 0).addEdge 1 1
    upper := (Graph.complete 3 true).addEdge 1 1
    log := {} }

theorem reachable_cycleWithLoop : cycleWithLoop.Reachable := by
  have h0 : 0 < 3 := by decide
  have h1 : 1 < 3 := by decide
  have hlower := (((Graph.Built.empty (n := 3) (d := true)).addEdge h0 h1).addEdge h1 h0).addEdge
    h1 h1
  have hupper := (Graph.Built.complete 3 true).addEdge h1 h1
  exact .of_nested hlower hupper (by decide +kernel)

/-- The stacks hold an edge twice that was never removed.  With the five waiting edges and the four
undecided ones there are nine turns at most. -/
theorem filter_terminates_cycle :
    let t : Transitivity := { enforced := [(1, 1), (0, 1), (1, 0)], removed := [(2, 0), (2, 0)] }
    cycleWithLoop.Reachable ∧
      filter.passes (fun _ s => !s.domains.isPotential 2 0 && !s.domains.isPotential 2 1)
        ⟨t, cycleWithLoop⟩ = true ∧
      ∃ turns, Drains .enforced ⟨t, cycleWithLoop⟩ turns (filter ⟨t, cycleWithLoop⟩) ∧
        turns.length ≤ 9 ∧
        GraphVar.occurrences true (turns.flatMap Turn.pushed) 2 1 ≤ 1 ∧
        GraphVar.occurrences true (turns.flatMap Turn.pushed) 0 1 = 0 := by
  intro t
  have hpasses : filter.passes (fun _ s => !s.domains.isPotential 2 0 &&
      !s.domains.isPotential 2 1) ⟨t, cycleWithLoop⟩ = true := by decide +kernel
  obtain ⟨turns, hturns, honce, hlength, -⟩ := filter_terminates reachable_cycleWithLoop t
  have hcard : t.enforced.length + t.removed.length + cycleWithLoop.undecidedEdges.card = 9 := by
    decide +kernel
  have hundecided : (cycleWithLoop.isUndecided 2 1).toNat = 1 := by decide +kernel
  have hdecided : (cycleWithLoop.isUndecided 0 1).toNat = 0 := by decide +kernel
  refine ⟨reachable_cycleWithLoop, hpasses, turns, hturns, hlength.trans_eq hcard, ?_, ?_⟩
  · exact (honce 2 1).trans_eq hundecided
  · exact Nat.le_zero.mp ((honce 0 1).trans_eq hdecided)

end Transitivity

end GraphInterval
