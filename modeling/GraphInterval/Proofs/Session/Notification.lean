import GraphInterval.Proofs.Session.Contract
import Mathlib.Logic.Function.Basic

/-!
# Skipped events

A host tells every propagator which events it has not seen, and runs it only if
it asks for that.  An event that a propagator skips stands for a change that
cannot break what the propagator established: a change of a node tells nothing
about triples of edges, a removal does not raise a degree, and a mandatory edge
joins nodes that were mandatory before.  So a variable stays stable from a
successful propagation until an event is not skipped, and another propagation
would find nothing to do.
-/

namespace GraphInterval

namespace Propagator

variable {p : Propagator} {g g' : GraphVar} {e : Event}

/-! ### Changes that keep a variable stable -/

theorem stable_includeNode (h : p.Stable g) {v : Nat}
    (hskip : p.notify (.nodeEnforced v) = .skip) : p.Stable (g.includeNode v) := by
  cases p with
  | transitivity t => exact fun a b c hab hbc hac =>
      ⟨(h a b c hab hbc hac).enforce, (h a b c hab hbc hac).second, (h a b c hab hbc hac).first⟩
  | connectivity c => cases hskip
  | degree limit => exact fun x hx => ⟨(h x hx).degree_le, (h x hx).full⟩

theorem stable_includeEdge (hg : g.Valid) (h : p.Stable g) {a b : Nat}
    (ha : g.isMandatoryNode a = true) (hb : g.isMandatoryNode b = true)
    (hskip : p.notify (.edgeEnforced a b) = .skip) : p.Stable (g.includeEdge a b) := by
  cases p with
  | transitivity t => cases hskip
  | connectivity c =>
      have hnode : ∀ v, (g.includeEdge a b).isMandatoryNode v = true ↔
          g.isMandatoryNode v = true := by
        intro v
        refine (Graph.hasNode_addEdge hg.lower (hg.lower.lt_of_hasNode ha)
          (hg.lower.lt_of_hasNode hb) v).trans ⟨?_, fun hv => .inr (.inr hv)⟩
        rintro (rfl | rfl | hv)
        · exact ha
        · exact hb
        · exact hv
      refine ⟨fun r v hr hv => h.joined r v ((hnode r).mp hr) hv, fun r m v hr hm hv hnot => ?_⟩
      refine h.bypass r m v ((hnode r).mp hr) ((hnode m).mp hm) hv ?_
      rw [Bool.eq_false_iff] at hnot ⊢
      exact fun hmandatory => hnot ((hnode v).mpr hmandatory)
  | degree limit => cases hskip

theorem stable_excludeEdge (hg : g.Valid) (h : p.Stable g) {a b : Nat}
    (hskip : p.notify (.edgeRemoved a b) = .skip) : p.Stable (g.excludeEdge a b) := by
  cases p with
  | transitivity t => cases hskip
  | connectivity c => cases hskip
  | degree limit =>
      intro v hv
      have hv' : g.isPotentialNode v = true := (Graph.hasNode_removeEdge _ _ _ _).symm.trans hv
      exact ⟨(h v hv').degree_le, fun hfull w hw =>
        (h v hv').full hfull w ((GraphVar.isPotential_excludeEdge hg a b _ _).mp hw).2⟩

theorem stable_excludeNode (hg : g.Valid) (h : p.Stable g) {v : Nat}
    (hskip : p.notify (.nodeRemoved v) = .skip) : p.Stable (g.excludeNode v) := by
  cases p with
  | transitivity t => exact fun a b c hab hbc hac =>
      ⟨(h a b c hab hbc hac).enforce, (h a b c hab hbc hac).second, (h a b c hab hbc hac).first⟩
  | connectivity c => cases hskip
  | degree limit =>
      intro x hx
      have hx' : g.isPotentialNode x = true := ((Graph.hasNode_erase hg.upper v x).mp hx).2
      exact ⟨(h x hx').degree_le, (h x hx').full⟩

/-- A change whose event is skipped keeps a variable stable. -/
theorem Stable.change (hg : g.Valid) (h : p.Stable g) (hchange : GraphVar.Change g g')
    (hevents : g'.events = g.events ++ [e]) (hskip : p.notify e = .skip) : p.Stable g' := by
  have hevent : ∀ e', g'.events = g.events ++ [e'] → p.notify e' = .skip := by
    intro e' he'
    have heq := List.append_cancel_left (hevents.symm.trans he')
    rwa [← List.singleton_inj.mp heq]
  cases hchange with
  | includeNode => exact stable_includeNode h (hevent _ (GraphVar.events_record _ _))
  | includeEdge _ _ ha hb =>
      exact stable_includeEdge hg h ha hb (hevent _ (GraphVar.events_record _ _))
  | excludeEdge => exact stable_excludeEdge hg h (hevent _ (GraphVar.events_record _ _))
  | excludeNode => exact stable_excludeNode hg h (hevent _ (GraphVar.events_record _ _))

/-- A checkpoint does not change the bounds. -/
theorem Stable.mark (h : p.Stable g) : p.Stable g.mark := by
  cases p with
  | transitivity t => exact fun a b c hab hbc hac =>
      ⟨(h a b c hab hbc hac).enforce, (h a b c hab hbc hac).second, (h a b c hab hbc hac).first⟩
  | connectivity c => exact ⟨h.joined, h.bypass⟩
  | degree limit => exact fun x hx => ⟨(h x hx).degree_le, (h x hx).full⟩

/-! ### What is known about a propagator -/

/-- What the host knows about a propagator. -/
inductive Standing where
  /-- It was not run since it was posted or since the last backtracking. -/
  | fresh
  /-- Its last propagation failed. -/
  | failed
  /-- Its last propagation succeeded when the log had this many events. -/
  | current (numEvents : Nat)

/-- The variable is stable unless the propagator asked to be run again. -/
structure Watches (p : Propagator) (g : GraphVar) (standing : Standing) : Prop where
  suits : p.Suits g
  resumable : standing ≠ .failed → p.Resumable g
  stable : ∀ numEvents, standing = .current numEvents → numEvents ≤ g.events.length ∧
    ((∀ e ∈ g.events.drop numEvents, p.notify e = .skip) → p.Stable g)

variable {standing : Standing}

theorem Watches.change (hg : g.Valid) (h : p.Watches g standing)
    (hchange : GraphVar.Change g g') : p.Watches g' standing := by
  have hnarrows : g.Narrows g' := .single hchange
  refine ⟨h.suits.congr (hnarrows.order hg) (hnarrows.directed hg), fun hstanding => ?_,
    fun n hn => ?_⟩
  · cases p with
    | transitivity t =>
        exact fun hpass => Transitivity.Current.narrows (h.resumable hstanding hpass) hnarrows
    | connectivity c => trivial
    | degree limit => trivial
  · obtain ⟨hle, hstable⟩ := h.stable n hn
    obtain ⟨e, hrecords⟩ := hchange.records hg
    have hevents := hrecords.events_eq
    rw [hevents, List.length_append, List.drop_append_of_le_length hle]
    refine ⟨Nat.le_add_right_of_le hle, fun hskip => ?_⟩
    have hold := hstable fun e' he' => hskip e' (List.mem_append_left _ he')
    exact hold.change hg hchange hevents
      (hskip e (List.mem_append_right _ (List.mem_singleton_self e)))

theorem Watches.narrows (hg : g.Valid) (h : p.Watches g standing) (hnarrows : g.Narrows g') :
    p.Watches g' standing := by
  induction hnarrows with
  | refl => exact h
  | tail hnarrows hchange ih => exact ih.change (GraphVar.Narrows.valid hnarrows hg) hchange

theorem Watches.mark (h : p.Watches g standing) : p.Watches g.mark standing := by
  refine ⟨h.suits.congr rfl rfl, fun hstanding => ?_, fun n hn => ?_⟩
  · cases p with
    | transitivity t =>
        exact fun hpass => Transitivity.Current.mark (h.resumable hstanding hpass)
    | connectivity c => trivial
    | degree limit => trivial
  · obtain ⟨hle, hstable⟩ := h.stable n hn
    exact ⟨hle, fun hskip => (hstable hskip).mark⟩

/-- After a successful propagation, the host is informed about all events. -/
theorem Completed.watches {t : State} (ht : p.Completed g t) :
    t.propagator.Watches t.domains (.current t.domains.numEvents) := by
  have hlength : t.domains.numEvents = t.domains.events.length := Array.length_toList.symm
  refine ⟨ht.suits, fun _ => ht.resumable, fun n hn => ?_⟩
  cases hn
  exact ⟨Nat.le_of_eq hlength, fun _ => (ht.stable_iff _).mpr ht.stable⟩

theorem Failed.watches {t : State} {failure : Failure} (ht : p.Failed g failure t) :
    t.propagator.Watches t.domains .failed :=
  ⟨ht.suits, fun hne => absurd rfl hne, fun n hn => by cases hn⟩

/-- After backtracking, nothing is assumed about the variable. -/
theorem Watches.synchronise (h : p.Watches g standing) (horder : g'.order = g.order)
    (hdirected : g'.directed = g.directed) : (p.synchronise g').Watches g' .fresh := by
  have hsuits := h.suits.congr horder hdirected
  refine ⟨?_, fun _ => ?_, fun n hn => by cases hn⟩
  · cases p <;> exact hsuits
  · cases p with
    | transitivity t => exact fun hpass => by cases hpass
    | connectivity c => trivial
    | degree limit => trivial

end Propagator

namespace Session

open Propagator (Standing)

variable {s s' : Session GraphVar} {p : Propagator} {index : Nat} {ledger : Nat → Standing}

/-- The sessions that a host produces, with what it knows about every propagator.  A propagator
that failed is not run again before the host backtracks. -/
inductive Hosted : Session GraphVar → (Nat → Standing) → Prop where
  | start {g : GraphVar} : g.Reachable → Hosted { domains := g } fun _ => .fresh
  | post {s s' : Session GraphVar} {ledger : Nat → Standing} {constraint : Constraint}
      {p : Propagator} : Hosted s ledger → s.post constraint = .ok (p, s') →
      Hosted s' (Function.update ledger s.propagators.size .fresh)
  | mutate {s : Session GraphVar} {ledger : Nat → Standing} (m : GraphVar.Mutation) :
      Hosted s ledger → Hosted ((onGraph m.run).after s) ledger
  | mark {s s' : Session GraphVar} {ledger : Nat → Standing} {checkpoint : Nat} :
      Hosted s ledger → Session.mark s = .ok checkpoint s' → Hosted s' ledger
  | tell {s : Session GraphVar} {ledger : Nat → Standing} (index : Nat) :
      Hosted s ledger → Hosted (catchUp index s) ledger
  | succeed {s s' : Session GraphVar} {ledger : Nat → Standing} {index : Nat}
      {x : Propagator.Run Unit} : x = Propagator.propagate ∨ x = Propagator.propagateFromScratch →
      Hosted s ledger → ledger index ≠ .failed → propagation index x s = .ok () s' →
      Hosted s' (Function.update ledger index (.current s'.graph.numEvents))
  | fail {s s' : Session GraphVar} {ledger : Nat → Standing} {index : Nat}
      {x : Propagator.Run Unit} {failure : Failure} :
      x = Propagator.propagate ∨ x = Propagator.propagateFromScratch →
      Hosted s ledger → ledger index ≠ .failed → propagation index x s = .error failure s' →
      Hosted s' (Function.update ledger index .failed)
  | backtrack {s s' : Session GraphVar} {ledger : Nat → Standing} {target checkpoint : Nat} :
      Hosted s ledger → Session.backtrack target s = .ok checkpoint s' →
      Hosted s' fun _ => .fresh

/-- What holds in every session of a host. -/
structure Watched (s : Session GraphVar) (ledger : Nat → Standing) : Prop where
  retractable : GraphVar.Retractable s.graph.events.reverse s.graph
  watches : ∀ (index : Nat) (p : Propagator), s.propagators[index]? = some p →
    p.Watches s.graph (ledger index)

theorem Watched.valid (h : Watched s ledger) : s.graph.Valid := h.retractable.valid

/-- Only the propagator that ran is replaced. -/
theorem Watched.returned {t : Propagator.State} {standing : Standing} (h : Watched s ledger)
    (hp : s.propagators[index]? = some p) (hnarrows : s.graph.Narrows t.domains)
    (ht : t.propagator.Watches t.domains standing) :
    Watched (s.returned index t) (Function.update ledger index standing) := by
  have hindex : index < s.propagators.size := (Array.getElem?_eq_some_iff.mp hp).1
  refine ⟨hnarrows.retractable h.retractable, fun i q hq => ?_⟩
  rw [propagators_returned s index t hindex] at hq
  split at hq
  next heq =>
    obtain rfl := Option.some.inj hq
    rw [← heq, Function.update_self]
    exact ht
  next hne =>
    rw [Function.update_of_ne (Ne.symm hne)]
    exact (h.watches i q hq).narrows h.valid hnarrows

/-- A propagation reports whether the propagator is current or has failed. -/
theorem Watched.propagation_wp {x : Propagator.Run Unit}
    (hx : x = Propagator.propagate ∨ x = Propagator.propagateFromScratch) (h : Watched s ledger)
    (hledger : ledger index ≠ .failed) :
    (propagation index x).wp
      (fun _ s' => Watched s' (Function.update ledger index (.current s'.graph.numEvents)))
      (fun _ s' => Watched s' (Function.update ledger index .failed)) s := by
  cases hp : s.propagators[index]? with
  | none =>
      rw [propagation, Attempt.wp_bind, propagator, Attempt.wp_bind, Attempt.wp_get]
      simp only [hp]
      refine ⟨h.retractable, fun i q hq => ?_⟩
      rw [Function.update_of_ne]
      · exact h.watches i q hq
      · rintro rfl
        exact absurd (hp.symm.trans hq) (by simp)
  | some p =>
      have hwatches := h.watches index p hp
      have hwp : x.wp (fun _ t => p.Completed s.graph t) (p.Failed s.graph) ⟨p, s.graph⟩ := by
        obtain rfl | rfl := hx
        · exact Propagator.propagate_wp h.valid hwatches.suits (hwatches.resumable hledger)
        · exact Propagator.propagateFromScratch_wp h.valid hwatches.suits
      rw [Session.propagation_wp hp]
      exact Attempt.wp_mono hwp (fun _ _ ht => h.returned hp ht.narrows ht.watches)
        fun _ _ ht => h.returned hp ht.narrows ht.watches

theorem Watched.mutate (h : Watched s ledger) (m : GraphVar.Mutation) :
    Watched ((onGraph m.run).after s) ledger := by
  have hwp := m.wp_run h.valid
  refine Attempt.after_of_wp (P := fun s' => Watched s' ledger) ?_
  rw [onGraph, Attempt.wp_within]
  refine Attempt.wp_mono hwp ?_ ?_
  · intro _ g' hnarrows
    exact ⟨GraphVar.Narrows.retractable hnarrows h.retractable, fun i q hq =>
      (h.watches i q hq).narrows h.valid hnarrows⟩
  · rintro failure g' ⟨-, rfl⟩
    exact ⟨h.retractable, h.watches⟩

/-- A new propagator was not run yet. -/
theorem Watched.post (h : Watched s ledger) {constraint : Constraint}
    (hpost : s.post constraint = .ok (p, s')) :
    Watched s' (Function.update ledger s.propagators.size .fresh) := by
  unfold Session.post at hpost
  cases hmake : Propagator.make s.graph constraint with
  | error refusal =>
      rw [hmake] at hpost
      cases hpost
  | ok q =>
      rw [hmake] at hpost
      obtain ⟨rfl, rfl⟩ := Prod.mk.inj (Except.ok.inj hpost)
      refine ⟨h.retractable, fun i r hr => ?_⟩
      dsimp only at hr
      rw [Array.getElem?_push] at hr
      split at hr
      next heq =>
        obtain rfl := Option.some.inj hr
        rw [heq, Function.update_self]
        exact ⟨Propagator.suits_make hmake, fun _ => Propagator.resumable_make hmake,
          fun n hn => by cases hn⟩
      next hne =>
        rw [Function.update_of_ne hne]
        exact h.watches i r hr

theorem Watched.backtrack (h : Watched s ledger) {target checkpoint : Nat}
    (hback : Session.backtrack target s = .ok checkpoint s') : Watched s' fun _ => .fresh := by
  have hwp : (Session.backtrack target).wp (fun _ s' => Watched s' fun _ => .fresh)
      (fun _ _ => True) s := by
    rw [Session.backtrack, Attempt.wp_bind, onDomains, Attempt.wp_within, Attempt.wp]
    cases hsync : (GraphHost.synchronise target : Attempt GraphVar Unit) s.domains with
    | error failure g' => trivial
    | ok _ g' =>
        obtain ⟨horder, hdirected⟩ := h.retractable.universe_of_synchronise hsync
        refine ⟨h.retractable.of_synchronise hsync, fun i q hq => ?_⟩
        change (s.propagators.map (Propagator.synchronise g'))[i]? = some q at hq
        rw [Array.getElem?_map, Option.map_eq_some_iff] at hq
        obtain ⟨r, hr, rfl⟩ := hq
        exact (h.watches i r hr).synchronise horder hdirected
  have hwatched := Attempt.of_wp_ok hwp hback
  exact hwatched

theorem Hosted.watched (h : Hosted s ledger) : Watched s ledger := by
  induction h with
  | start hg => exact ⟨hg.retractable, fun i q hq => by simp at hq⟩
  | post _ hpost ih => exact ih.post hpost
  | mutate m _ ih => exact ih.mutate m
  | mark _ hmark ih =>
      cases hmark
      exact ⟨ih.retractable.mark, fun i q hq => (ih.watches i q hq).mark⟩
  | tell index _ ih => exact ⟨ih.retractable, ih.watches⟩
  | succeed hx _ hledger hrun ih =>
      have hwatched := Attempt.of_wp_ok (ih.propagation_wp hx hledger) hrun
      exact hwatched
  | fail hx _ hledger hrun ih =>
      have hwatched := Attempt.of_wp_error (ih.propagation_wp hx hledger) hrun
      exact hwatched
  | backtrack _ hback ih => exact ih.backtrack hback

/-- In every run of a host, if the last propagation of a propagator succeeded and it skips all
events that were logged since, then propagating the whole graph succeeds and changes nothing. -/
theorem propagateFromScratch_of_skipped (h : Hosted s ledger)
    (hp : s.propagators[index]? = some p) {numEvents : Nat}
    (hcurrent : ledger index = .current numEvents)
    (hskip : ∀ e ∈ s.graph.events.drop numEvents, p.notify e = .skip) :
    ∃ s', propagateFromScratch index s = .ok () s' ∧ s'.graph = s.graph := by
  have hwatched := h.watched
  obtain ⟨hsuits, -, hstable⟩ := hwatched.watches index p hp
  obtain ⟨t, hrun, hsame⟩ := Propagator.propagateFromScratch_of_stable hwatched.valid hsuits
    ((hstable numEvents hcurrent).2 hskip)
  rw [graph_eq] at hrun
  have hwp : (propagateFromScratch index).wp (fun _ s' => s'.graph = s.graph)
      (fun _ _ => False) s := by
    rw [propagateFromScratch, Attempt.wp_ensuring, propagation_wp hp, Attempt.wp, hrun]
    exact hsame
  obtain ⟨_, s', hs', hgraph⟩ := Attempt.exists_ok hwp
  exact ⟨s', hs', hgraph⟩

/-- A node that becomes mandatory after a path was closed is no news to transitivity. -/
theorem propagateFromScratch_of_skipped_node :
    let s₀ : Session GraphVar :=
      { domains := GraphVar.unconstrained 4 true
        propagators := #[.transitivity {}]
        seen := #[0] }
    let s₁ := (onGraph (GraphVar.Mutation.enforceEdge 1 2).run).after
      ((onGraph (GraphVar.Mutation.enforceEdge 0 1).run).after s₀)
    ∃ s₂ s₃ ledger p, propagation 0 Propagator.propagate s₁ = .ok () s₂ ∧
      s₃ = (onGraph (GraphVar.Mutation.enforceNode 3).run).after s₂ ∧
      Hosted s₃ ledger ∧ s₃.propagators[0]? = some p ∧
      ledger 0 = .current s₂.graph.numEvents ∧
      s₃.graph.events.drop s₂.graph.numEvents = [.nodeEnforced 3] ∧
      (∀ e ∈ s₃.graph.events.drop s₂.graph.numEvents, p.notify e = .skip) ∧
      s₃.graph.isMandatory 0 2 = true ∧
      ∃ s', propagateFromScratch 0 s₃ = .ok () s' ∧ s'.graph = s₃.graph := by
  intro s₀ s₁
  have hpost : Session.post { domains := GraphVar.unconstrained 4 true } .transitive =
      .ok (.transitivity {}, s₀) := rfl
  have hs₀ : Hosted s₀ _ := .post (.start (.unconstrained 4 true)) hpost
  have hs₁ : Hosted s₁ _ := .mutate (.enforceEdge 1 2) (.mutate (.enforceEdge 0 1) hs₀)
  have heval : (propagation 0 Propagator.propagate).passes (fun _ s₂ =>
      let s₃ := (onGraph (GraphVar.Mutation.enforceNode 3).run).after s₂
      s₃.graph.events.drop s₂.graph.numEvents == [.nodeEnforced 3] &&
        s₃.graph.isMandatory 0 2 &&
        s₃.propagators[0]?.any (Propagator.notify (.nodeEnforced 3) · == .skip)) s₁ = true := by
    decide +kernel
  obtain ⟨_, s₂, hrun, htest⟩ := Attempt.passes_iff.mp heval
  simp only [Bool.and_eq_true, beq_iff_eq, Option.any_eq_true] at htest
  obtain ⟨⟨hevents, hmandatory⟩, p, hp, hkind⟩ := htest
  have hs₂ : Hosted s₂ _ := .succeed (.inl rfl) hs₁ (by simp) hrun
  have hs₃ : Hosted _ _ := .mutate (.enforceNode 3) hs₂
  have hskip : ∀ e ∈ ((onGraph (GraphVar.Mutation.enforceNode 3).run).after s₂).graph.events.drop
      s₂.graph.numEvents, p.notify e = .skip := by
    rw [hevents]
    simpa using hkind
  exact ⟨s₂, _, _, p, hrun, rfl, hs₃, hp, Function.update_self .., hevents, hskip,
    hmandatory, propagateFromScratch_of_skipped hs₃ hp (Function.update_self ..) hskip⟩

end Session

end GraphInterval
