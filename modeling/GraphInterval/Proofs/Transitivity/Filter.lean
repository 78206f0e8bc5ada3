import GraphInterval.Proofs.Propagation
import GraphInterval.Proofs.Transitivity.Closure
import GraphInterval.Transitivity

/-!
# Filtering transitive graphs

While the propagator filters, every triple of nodes to which a rule applies
has an edge that waits on one of the stacks.  Processing an edge settles the
triples that it belongs to, and deciding another edge puts that edge on a
stack, so the invariant holds until no edge waits; then every triple is
settled.  Every decision is forced by the transitive graphs of the domain.
-/

namespace GraphInterval

namespace Transitivity

abbrev State := Posted Transitivity GraphVar

variable {g₀ : GraphVar} {X Y : Nat → Nat → Nat → Prop} {s s' : State}

/-- The edge is on one of the stacks, in one of its orders. -/
def Waits (s : State) (a b : Nat) : Prop :=
  ∃ e, (e ∈ s.propagator.enforced ∨ e ∈ s.propagator.removed) ∧
    Shape.SameEdge s.domains.directed e.1 e.2 a b

/-- The decisions since `g₀` are forced, the stacks hold decided edges, and a
triple that is not settled has a waiting edge or belongs to `X`. -/
structure Filtering (g₀ : GraphVar) (X : Nat → Nat → Nat → Prop) (s : State) : Prop where
  noPass : s.propagator.fullPassPending = false
  narrows : g₀.Narrows s.domains
  keeps : ∀ H ∈ g₀.transitiveGraphs, s.domains.Admits H
  enforced : ∀ e ∈ s.propagator.enforced, s.domains.isMandatory e.1 e.2 = true
  removed : ∀ e ∈ s.propagator.removed, s.domains.isPotential e.1 e.2 = false
  settled : ∀ a b c, a ≠ b → b ≠ c → a ≠ c → s.domains.Settled a b c ∨
    Waits s a b ∨ Waits s b c ∨ Waits s a c ∨ X a b c ∨ (s.domains.directed = false ∧ X c b a)

/-- The propagator stopped because the domain has no transitive graph. -/
structure Failed (g₀ : GraphVar) (failure : Failure) (s : State) : Prop where
  failure_eq : failure = .wipeout
  narrows : g₀.Narrows s.domains
  empty : ∀ H, H ∉ g₀.transitiveGraphs

/-- The number of waiting and of undecided edges. -/
def budget (s : State) : Nat :=
  s.propagator.enforced.length + s.propagator.removed.length + s.domains.numUndecided

theorem Filtering.valid (hg₀ : g₀.Valid) (h : Filtering g₀ X s) : s.domains.Valid :=
  h.narrows.valid hg₀

/-- The list of endpoints is of no concern. -/
theorem Filtering.holding (h : Filtering g₀ X s) (l : List Nat) :
    Filtering g₀ X (s.holding incidentBuffer l) :=
  ⟨h.noPass, h.narrows, h.keeps, h.enforced, h.removed, h.settled⟩

/-- Triples that are settled need not be excepted. -/
theorem Filtering.except (hg₀ : g₀.Valid) (h : Filtering g₀ X s)
    (hX : ∀ a b c, a ≠ b → b ≠ c → a ≠ c → X a b c → s.domains.Settled a b c ∨ Y a b c) :
    Filtering g₀ Y s := by
  refine ⟨h.noPass, h.narrows, h.keeps, h.enforced, h.removed, fun a b c hab hbc hac => ?_⟩
  obtain hs | hs | hs | hs | hs | ⟨hd, hs⟩ := h.settled a b c hab hbc hac
  · exact .inl hs
  · exact .inr (.inl hs)
  · exact .inr (.inr (.inl hs))
  · exact .inr (.inr (.inr (.inl hs)))
  · obtain hs | hs := hX a b c hab hbc hac hs
    · exact .inl hs
    · exact .inr (.inr (.inr (.inr (.inl hs))))
  · obtain hs | hs := hX c b a hbc.symm hab.symm hac.symm hs
    · exact .inl (hs.symm (h.valid hg₀) hd)
    · exact .inr (.inr (.inr (.inr (.inr ⟨hd, hs⟩))))

/-! ### Deciding an edge -/

theorem settled_congr {g g' : GraphVar} {a b c : Nat}
    (hM : ∀ x y, (x = a ∧ y = b) ∨ (x = b ∧ y = c) ∨ (x = a ∧ y = c) →
      g'.isMandatory x y = g.isMandatory x y ∧ g'.isPotential x y = g.isPotential x y)
    (h : g.Settled a b c) : g'.Settled a b c := by
  obtain ⟨hMab, hPab⟩ := hM a b (.inl ⟨rfl, rfl⟩)
  obtain ⟨hMbc, hPbc⟩ := hM b c (.inr (.inl ⟨rfl, rfl⟩))
  obtain ⟨hMac, hPac⟩ := hM a c (.inr (.inr ⟨rfl, rfl⟩))
  constructor
  · rw [hMab, hMbc, hMac]
    exact h.enforce
  · rw [hMab, hPbc, hPac]
    exact h.second
  · rw [hMbc, hPab, hPac]
    exact h.first

/-- At most one edge was decided, and it was put on the stack of its decision. -/
structure Pushed (p q : Nat) (s s' : State) : Prop where
  pass : s'.propagator.fullPassPending = s.propagator.fullPassPending
  narrows : s.domains.Narrows s'.domains
  same : ∀ x y, ¬ Shape.SameEdge s.domains.directed p q x y →
    s'.domains.isMandatory x y = s.domains.isMandatory x y ∧
      s'.domains.isPotential x y = s.domains.isPotential x y
  pushed : (s'.propagator.enforced = (p, q) :: s.propagator.enforced ∧
      s'.propagator.removed = s.propagator.removed ∧ s'.domains.isMandatory p q = true) ∨
    (s'.propagator.enforced = s.propagator.enforced ∧
      s'.propagator.removed = (p, q) :: s.propagator.removed ∧
      s'.domains.isPotential p q = false)

namespace Pushed

variable {p q : Nat}

theorem waits_of_waits (h : Pushed p q s s') (hs : s.domains.Valid) {x y : Nat}
    (hwaits : Waits s x y) : Waits s' x y := by
  obtain ⟨e, he, hxy⟩ := hwaits
  refine ⟨e, ?_, h.narrows.directed hs ▸ hxy⟩
  obtain ⟨henf, hrem, -⟩ | ⟨henf, hrem, -⟩ := h.pushed
  · rw [henf, hrem]
    exact he.imp_left (List.mem_cons_of_mem _)
  · rw [henf, hrem]
    exact he.imp_right (List.mem_cons_of_mem _)

theorem waits (h : Pushed p q s s') (hs : s.domains.Valid) {x y : Nat}
    (hxy : Shape.SameEdge s.domains.directed p q x y) : Waits s' x y := by
  refine ⟨(p, q), ?_, h.narrows.directed hs ▸ hxy⟩
  obtain ⟨henf, -, -⟩ | ⟨-, hrem, -⟩ := h.pushed
  · exact .inl (henf ▸ List.mem_cons_self)
  · exact .inr (hrem ▸ List.mem_cons_self)

theorem enforced (h : Pushed p q s s') (hs : s.domains.Valid)
    (henforced : ∀ e ∈ s.propagator.enforced, s.domains.isMandatory e.1 e.2 = true) :
    ∀ e ∈ s'.propagator.enforced, s'.domains.isMandatory e.1 e.2 = true := by
  have hstay : ∀ e ∈ s.propagator.enforced, s'.domains.isMandatory e.1 e.2 = true :=
    fun e he => h.narrows.isMandatory hs (henforced e he)
  intro e he
  obtain ⟨henf, -, hM⟩ | ⟨henf, -, -⟩ := h.pushed
  · rw [henf] at he
    obtain rfl | he := List.mem_cons.mp he
    · exact hM
    · exact hstay e he
  · exact hstay e (henf ▸ he)

theorem removed (h : Pushed p q s s') (hs : s.domains.Valid)
    (hremoved : ∀ e ∈ s.propagator.removed, s.domains.isPotential e.1 e.2 = false) :
    ∀ e ∈ s'.propagator.removed, s'.domains.isPotential e.1 e.2 = false := by
  have hstay : ∀ e ∈ s.propagator.removed, s'.domains.isPotential e.1 e.2 = false := by
    intro e he
    rw [Bool.eq_false_iff]
    intro htrue
    exact Bool.eq_false_iff.mp (hremoved e he) (h.narrows.isPotential hs htrue)
  intro e he
  obtain ⟨-, hrem, -⟩ | ⟨-, hrem, hP⟩ := h.pushed
  · exact hstay e (hrem ▸ he)
  · rw [hrem] at he
    obtain rfl | he := List.mem_cons.mp he
    · exact hP
    · exact hstay e he

end Pushed

/-- Deciding one edge keeps the invariant if the edge is put on its stack. -/
theorem Filtering.push (hg₀ : g₀.Valid) (h : Filtering g₀ X s) {p q : Nat}
    (hpush : Pushed p q s s') (hkeeps : ∀ H ∈ g₀.transitiveGraphs, s'.domains.Admits H) :
    Filtering g₀ X s' := by
  have hvalid := h.valid hg₀
  refine ⟨hpush.pass.trans h.noPass, h.narrows.trans hpush.narrows, hkeeps,
    hpush.enforced hvalid h.enforced, hpush.removed hvalid h.removed, fun a b c hab hbc hac => ?_⟩
  -- a triple with the decided edge waits for it; the others are as they were
  by_cases hpqab : Shape.SameEdge s.domains.directed p q a b
  · exact .inr (.inl (hpush.waits hvalid hpqab))
  by_cases hpqbc : Shape.SameEdge s.domains.directed p q b c
  · exact .inr (.inr (.inl (hpush.waits hvalid hpqbc)))
  by_cases hpqac : Shape.SameEdge s.domains.directed p q a c
  · exact .inr (.inr (.inr (.inl (hpush.waits hvalid hpqac))))
  obtain hs | hs | hs | hs | hs | ⟨hd, hs⟩ := h.settled a b c hab hbc hac
  · refine .inl (settled_congr (fun x y hxy => hpush.same x y ?_) hs)
    obtain ⟨rfl, rfl⟩ | ⟨rfl, rfl⟩ | ⟨rfl, rfl⟩ := hxy <;> assumption
  · exact .inr (.inl (hpush.waits_of_waits hvalid hs))
  · exact .inr (.inr (.inl (hpush.waits_of_waits hvalid hs)))
  · exact .inr (.inr (.inr (.inl (hpush.waits_of_waits hvalid hs))))
  · exact .inr (.inr (.inr (.inr (.inl hs))))
  · exact .inr (.inr (.inr (.inr (.inr ⟨(hpush.narrows.directed hvalid).trans hd, hs⟩))))

theorem enforce_wp (hg₀ : g₀.Valid) (h : Filtering g₀ X s) {p q : Nat}
    (hforced : ∀ H ∈ g₀.transitiveGraphs, H.edge p q) :
    (enforce p q).wp
      (fun _ s' => Filtering g₀ X s' ∧ s.domains.Narrows s'.domains ∧
        s'.domains.isMandatory p q = true ∧ budget s' = budget s)
      (Failed g₀) s := by
  have hvalid := h.valid hg₀
  rw [enforce, Attempt.wp_bind, Posted.onDomains, Attempt.wp_within]
  refine Attempt.wp_mono (GraphVar.enforceEdge_wp hvalid p q) ?_ ?_
  · rintro changed g' ⟨hnarrows, hM, hadmits, hchanged, hsame⟩
    cases changed with
    | false =>
        obtain rfl := hsame rfl
        exact ⟨h, hnarrows, hM, rfl⟩
    | true =>
        obtain ⟨hnot, hupper, hcount, hedge⟩ := hchanged rfl
        have hpush : Filtering g₀ X
            { propagator := { s.propagator with
                numEdgesEnforced := s.propagator.numEdgesEnforced + 1,
                enforced := (p, q) :: s.propagator.enforced },
              domains := g' } := by
          refine h.push hg₀ ⟨rfl, hnarrows, fun x y hxy => ⟨?_, ?_⟩, .inl ⟨rfl, rfl, hM⟩⟩
            fun H hH => hadmits H (h.keeps H hH) (hforced H hH)
          · rw [Bool.eq_iff_iff, hedge]
            exact or_iff_right hxy
          · rw [GraphVar.isPotential, hupper, GraphVar.isPotential]
        refine ⟨hpush, hnarrows, hM, ?_⟩
        have hle := (hnarrows.valid hvalid).numEdges_le
        simp only [budget, GraphVar.numUndecided, List.length_cons]
        rw [hupper, hcount] at hle ⊢
        omega
  · rintro failure g' ⟨hfailure, rfl, hnone⟩
    exact ⟨hfailure, h.narrows, fun H hH => hnone H (h.keeps H hH) (hforced H hH)⟩

theorem remove_wp (hg₀ : g₀.Valid) (h : Filtering g₀ X s) {p q : Nat}
    (hforced : ∀ H ∈ g₀.transitiveGraphs, ¬ H.edge p q) :
    (remove p q).wp
      (fun _ s' => Filtering g₀ X s' ∧ s.domains.Narrows s'.domains ∧
        s'.domains.isPotential p q = false ∧ s'.domains.lower = s.domains.lower ∧
        budget s' = budget s)
      (Failed g₀) s := by
  have hvalid := h.valid hg₀
  rw [remove, Attempt.wp_bind, Posted.onDomains, Attempt.wp_within]
  refine Attempt.wp_mono (GraphVar.removeEdge_wp hvalid p q) ?_ ?_
  · rintro changed g' ⟨hnarrows, hP, hlower, hadmits, hchanged, hsame⟩
    cases changed with
    | false =>
        obtain rfl := hsame rfl
        exact ⟨h, hnarrows, hP, rfl, rfl⟩
    | true =>
        obtain ⟨hpotential, hcount, hedge⟩ := hchanged rfl
        have hpush : Filtering g₀ X
            { propagator := { s.propagator with
                numEdgesRemoved := s.propagator.numEdgesRemoved + 1,
                removed := (p, q) :: s.propagator.removed },
              domains := g' } := by
          refine h.push hg₀ ⟨rfl, hnarrows, fun x y hxy => ⟨?_, ?_⟩, .inr ⟨rfl, rfl, hP⟩⟩
            fun H hH => hadmits H (h.keeps H hH) (hforced H hH)
          · rw [GraphVar.isMandatory, hlower, GraphVar.isMandatory]
          · rw [Bool.eq_iff_iff, hedge]
            exact and_iff_right hxy
        refine ⟨hpush, hnarrows, hP, hlower, ?_⟩
        have hle := (hnarrows.valid hvalid).numEdges_le
        simp only [budget, GraphVar.numUndecided, List.length_cons]
        rw [hlower] at hle ⊢
        omega
  · rintro failure g' ⟨hfailure, rfl, hall⟩
    exact ⟨hfailure, h.narrows, fun H hH => hforced H hH (hall H (h.keeps H hH))⟩

/-! ### What the transitive graphs contain -/

theorem Filtering.edge (h : Filtering g₀ X s) {H : Shape} (hH : H ∈ g₀.transitiveGraphs)
    {a b : Nat} (hM : s.domains.isMandatory a b = true) : H.edge a b :=
  (h.keeps H hH).lower_le.2 a b hM

theorem Filtering.not_edge (h : Filtering g₀ X s) {H : Shape} (hH : H ∈ g₀.transitiveGraphs)
    {a b : Nat} (hP : s.domains.isPotential a b = false) : ¬ H.edge a b := fun hedge =>
  absurd (hP.symm.trans ((h.keeps H hH).le_upper.2 a b hedge)) (by simp)

/-- No path of two edges joins the ends of an impossible edge. -/
theorem Filtering.not_path (h : Filtering g₀ X s) {H : Shape} (hH : H ∈ g₀.transitiveGraphs)
    {a b c : Nat} (hac : a ≠ c) (hP : s.domains.isPotential a c = false) (hab : H.edge a b) :
    ¬ H.edge b c := by
  intro hbc
  have hnot : ¬ H.edge a c := h.not_edge hH hP
  by_cases hab' : a = b
  · exact hnot (hab' ▸ hbc)
  by_cases hbc' : b = c
  · exact hnot (hbc' ▸ hab)
  · exact hnot (hH.2 a b c hab' hbc' hac hab hbc)

/-! ### Loops that settle triples -/

/-- Between two steps of a loop that processes an edge. -/
structure Processing (g₀ : GraphVar) (X : Nat → Nat → Nat → Prop) (start s : State) : Prop where
  filtering : Filtering g₀ X s
  narrows : start.domains.Narrows s.domains
  budget_eq : budget s = budget start

theorem Processing.holding {start : State} (h : Processing g₀ X start s) (l : List Nat) :
    Processing g₀ X start (s.holding incidentBuffer l) :=
  ⟨h.filtering.holding l, h.narrows, h.budget_eq⟩

/-- A triple leaves the exception when it is settled. -/
theorem Processing.settle (hg₀ : g₀.Valid) {start t : State} {a b c : Nat}
    (h : Processing g₀ X start s) (ht : Filtering g₀ X t)
    (hnarrows : s.domains.Narrows t.domains) (hbudget : budget t = budget s)
    (hX : ∀ x y z, X x y z → Y x y z ∨ (x = a ∧ y = b ∧ z = c))
    (hsettled : a ≠ b → b ≠ c → a ≠ c → t.domains.Settled a b c) :
    Processing g₀ Y start t ∧ s.domains.Narrows t.domains := by
  have hY : Filtering g₀ Y t := by
    refine ht.except hg₀ fun x y z hxy hyz hxz hx => ?_
    obtain hY | ⟨rfl, rfl, rfl⟩ := hX x y z hx
    · exact .inr hY
    · exact .inl (hsettled hxy hyz hxz)
  exact ⟨⟨hY, h.narrows.trans hnarrows, hbudget.trans h.budget_eq⟩, hnarrows⟩

/-- The conclusion from a mandatory edge and another one that form a path around a third one. -/
def conclude (other third : Edge) : Run Unit := do
  let g := (← get).domains
  if g.isMandatory other.1 other.2 then enforce third.1 third.2
  else if !g.isPotential third.1 third.2 then remove other.1 other.2

theorem extendForward_eq (a b c : Nat) :
    extendForward a b c = if c = b ∨ c = a then return () else conclude (b, c) (a, c) := rfl

theorem extendBackward_eq (a b c : Nat) :
    extendBackward a b c = if c = b ∨ c = a then return () else conclude (c, a) (c, b) := rfl

/-- A conclusion settles the triple of its path. -/
theorem conclude_wp (hg₀ : g₀.Valid) {start : State} {x y z : Nat} {other : Edge}
    (h : Processing g₀ X start s) (hX : ∀ a b c, X a b c → Y a b c ∨ (a = x ∧ b = y ∧ c = z))
    (hpath : ∀ H ∈ g₀.transitiveGraphs, H.edge other.1 other.2 → H.edge x z)
    (hremoved : ∀ g : GraphVar, g.Valid → ¬ g.isPotential other.1 other.2 = true → g.Settled x y z)
    (hopen : ¬ s.domains.isMandatory other.1 other.2 = true →
      s.domains.isPotential x z = true → s.domains.Settled x y z) :
    (conclude other (x, z)).wp (fun _ s' => Processing g₀ Y start s' ∧
      s.domains.Narrows s'.domains) (Failed g₀) s := by
  rw [conclude, Attempt.wp_bind, Attempt.wp_get, Attempt.wp_ite]
  constructor
  · intro hM
    have hforced : ∀ H ∈ g₀.transitiveGraphs, H.edge x z := fun H hH =>
      hpath H hH (h.filtering.edge hH hM)
    refine Attempt.wp_mono (enforce_wp hg₀ h.filtering hforced) ?_ fun _ _ hf => hf
    rintro _ t ⟨ht, hnarrows, hMxz, hbudget⟩
    exact h.settle hg₀ ht hnarrows hbudget hX fun _ _ _ => .of_isMandatory (ht.valid hg₀) hMxz
  intro hM
  rw [Attempt.wp_ite]
  constructor
  · intro hP
    have hforced : ∀ H ∈ g₀.transitiveGraphs, ¬ H.edge other.1 other.2 := fun H hH hedge =>
      h.filtering.not_edge hH (by simpa using hP) (hpath H hH hedge)
    refine Attempt.wp_mono (remove_wp hg₀ h.filtering hforced) ?_ fun _ _ hf => hf
    rintro _ t ⟨ht, hnarrows, hPother, -, hbudget⟩
    exact h.settle hg₀ ht hnarrows hbudget hX fun _ _ _ =>
      hremoved t.domains (ht.valid hg₀) (by simp [hPother])
  · intro hP
    exact h.settle hg₀ h.filtering .refl rfl hX fun _ _ _ => hopen hM (by simpa using hP)

theorem extendForward_wp (hg₀ : g₀.Valid) {start : State} {a b c : Nat} (hab : a ≠ b)
    (h : Processing g₀ X start s) (hM : s.domains.isMandatory a b = true)
    (hX : ∀ x y z, X x y z → Y x y z ∨ (x = a ∧ y = b ∧ z = c)) :
    (extendForward a b c).wp (fun _ s' => Processing g₀ Y start s' ∧
      s.domains.Narrows s'.domains) (Failed g₀) s := by
  rw [extendForward_eq, Attempt.wp_ite]
  constructor
  · intro hskip
    refine h.settle hg₀ h.filtering .refl rfl hX fun _ hbc hac => ?_
    obtain rfl | rfl := hskip
    · exact absurd rfl hbc
    · exact absurd rfl hac
  · intro hskip
    obtain ⟨hcb, hca⟩ := not_or.mp hskip
    refine conclude_wp hg₀ h hX (fun H hH hbc => ?_) (fun g hg => .of_not_second hg) ?_
    · exact hH.2 a b c hab (Ne.symm hcb) (Ne.symm hca) (h.filtering.edge hH hM) hbc
    · intro hMbc hPac
      exact ⟨fun _ hM' => absurd hM' hMbc, fun _ _ => hPac, fun hM' => absurd hM' hMbc⟩

theorem extendBackward_wp (hg₀ : g₀.Valid) {start : State} {a b c : Nat} (hab : a ≠ b)
    (h : Processing g₀ X start s) (hM : s.domains.isMandatory a b = true)
    (hX : ∀ x y z, X x y z → Y x y z ∨ (x = c ∧ y = a ∧ z = b)) :
    (extendBackward a b c).wp (fun _ s' => Processing g₀ Y start s' ∧
      s.domains.Narrows s'.domains) (Failed g₀) s := by
  rw [extendBackward_eq, Attempt.wp_ite]
  constructor
  · intro hskip
    refine h.settle hg₀ h.filtering .refl rfl hX fun hca _ hcb => ?_
    obtain rfl | rfl := hskip
    · exact absurd rfl hcb
    · exact absurd rfl hca
  · intro hskip
    obtain ⟨hcb, hca⟩ := not_or.mp hskip
    refine conclude_wp hg₀ h hX (fun H hH hca' => ?_) (fun g hg => .of_not_first hg) ?_
    · exact hH.2 c a b hca hab hcb hca' (h.filtering.edge hH hM)
    · intro hMca hPcb
      exact ⟨fun hM' => absurd hM' hMca, fun hM' => absurd hM' hMca, fun _ _ => hPcb⟩

/-- Each step of a loop over `cs` settles the triple of its node. -/
theorem visitEach_extend_wp (hg₀ : g₀.Valid) {listed : GraphVar → List Nat} {f : Nat → Run Unit}
    {start : State} {a b : Nat} {T : Nat → Nat → Nat → Nat → Prop}
    (hstep : ∀ (c : Nat) (X Y : Nat → Nat → Nat → Prop) (t : State), Processing g₀ X start t →
      t.domains.isMandatory a b = true → (∀ x y z, X x y z → Y x y z ∨ T c x y z) →
      (f c).wp (fun _ t' => Processing g₀ Y start t' ∧ t.domains.Narrows t'.domains)
        (Failed g₀) t)
    (h : Processing g₀ (fun x y z => (∃ c ∈ listed s.domains, T c x y z) ∨ X x y z) start s)
    (hM : s.domains.isMandatory a b = true) :
    (Posted.visitEach incidentBuffer listed f).wp
      (fun _ s' => Processing g₀ X start s' ∧ s'.domains.isMandatory a b = true)
      (Failed g₀) s := by
  rw [Posted.wp_visitEach]
  refine Attempt.wp_mono (Attempt.wp_forM
    (I := fun rest t =>
      Processing g₀ (fun x y z => (∃ c ∈ rest, T c x y z) ∨ X x y z) start t ∧
        t.domains.isMandatory a b = true)
    (fun c rest t ht => ?_) _ ⟨h.holding _, hM⟩) ?_ fun _ _ hf => hf
  · refine Attempt.wp_mono (hstep c _ (fun x y z => (∃ c ∈ rest, T c x y z) ∨ X x y z) t ht.1 ht.2
      fun x y z hx => ?_) ?_ fun _ _ hf => hf
    · obtain ⟨d, hd, hT⟩ | hx := hx
      · obtain rfl | hd := List.mem_cons.mp hd
        · exact .inr hT
        · exact .inl (.inl ⟨d, hd, hT⟩)
      · exact .inl (.inr hx)
    · rintro _ t' ⟨ht', hnarrows⟩
      exact ⟨ht', hnarrows.isMandatory (ht.1.filtering.valid hg₀) ht.2⟩
  · rintro _ t ⟨ht, hMt⟩
    refine ⟨⟨ht.filtering.except hg₀ fun x y z _ _ _ hx => ?_, ht.narrows, ht.budget_eq⟩, hMt⟩
    obtain ⟨c, hc, -⟩ | hx := hx
    · exact absurd hc List.not_mem_nil
    · exact .inr hx

/-- The removals of a loop settle the triples from `a` through its nodes to `c`. -/
theorem visitEach_remove_wp (hg₀ : g₀.Valid) {listed : GraphVar → List Nat} {start : State}
    {a c : Nat} {p q : Nat → Nat}
    (hsettled : ∀ (g : GraphVar) (m : Nat), g.Valid → ¬ g.isPotential (p m) (q m) = true →
      g.Settled a m c)
    (hforced : ∀ m ∈ listed s.domains, ∀ H ∈ g₀.transitiveGraphs, ¬ H.edge (p m) (q m))
    (h : Processing g₀ (fun x y z => (x = a ∧ z = c ∧ y ∈ listed s.domains) ∨ X x y z) start s) :
    (Posted.visitEach incidentBuffer listed fun m => remove (p m) (q m)).wp
      (fun _ s' => Processing g₀ X start s' ∧ s'.domains.lower = s.domains.lower)
      (Failed g₀) s := by
  rw [Posted.wp_visitEach]
  refine Attempt.wp_mono (Attempt.wp_forM
    (I := fun rest t =>
      Processing g₀ (fun x y z => (x = a ∧ z = c ∧ y ∈ rest) ∨ X x y z) start t ∧
        t.domains.lower = s.domains.lower ∧
        ∀ m ∈ rest, ∀ H ∈ g₀.transitiveGraphs, ¬ H.edge (p m) (q m))
    (fun m rest t ht => ?_) _ ⟨h.holding _, rfl, hforced⟩) ?_ fun _ _ hf => hf
  · obtain ⟨hprocessing, hlower, hrest⟩ := ht
    refine Attempt.wp_mono (remove_wp hg₀ hprocessing.filtering
      (hrest m List.mem_cons_self)) ?_ fun _ _ hf => hf
    rintro _ t' ⟨ht', hnarrows, hP, hlower', hbudget⟩
    have hX : ∀ x y z, (x = a ∧ z = c ∧ y ∈ m :: rest) ∨ X x y z →
        ((x = a ∧ z = c ∧ y ∈ rest) ∨ X x y z) ∨ (x = a ∧ y = m ∧ z = c) := by
      rintro x y z (⟨hx, hz, hy⟩ | hx)
      · obtain rfl | hy := List.mem_cons.mp hy
        · exact .inr ⟨hx, rfl, hz⟩
        · exact .inl (.inl ⟨hx, hz, hy⟩)
      · exact .inl (.inr hx)
    obtain ⟨hdone, -⟩ := hprocessing.settle hg₀ ht' hnarrows hbudget hX fun _ _ _ =>
      hsettled t'.domains m (ht'.valid hg₀) (by simp [hP])
    exact ⟨hdone, hlower'.trans hlower, fun m' hm' => hrest m' (List.mem_cons_of_mem m hm')⟩
  · rintro _ t ⟨ht, hlower, -⟩
    refine ⟨⟨ht.filtering.except hg₀ fun x y z _ _ _ hx => ?_, ht.narrows, ht.budget_eq⟩, hlower⟩
    obtain ⟨-, -, hy⟩ | hx := hx
    · exact absurd hy List.not_mem_nil
    · exact .inr hx

/-! ### Processing a mandatory edge -/

/-- The triples in which a pair is the first or the second edge. -/
def AsPremise (a b x y z : Nat) : Prop := (x = a ∧ y = b) ∨ (y = a ∧ z = b)

theorem edgeEnforced_wp (hg₀ : g₀.Valid) {a b : Nat} (h : Filtering g₀ (AsPremise a b) s)
    (hM : s.domains.isMandatory a b = true) :
    (edgeEnforced a b).wp
      (fun _ s' => Filtering g₀ (fun _ _ _ => False) s' ∧ budget s' = budget s)
      (Failed g₀) s := by
  have hvalid := h.valid hg₀
  rw [edgeEnforced, Attempt.wp_ite]
  constructor
  · rintro rfl
    refine ⟨h.except hg₀ fun x y z hxy hyz _ hx => ?_, rfl⟩
    obtain ⟨rfl, rfl⟩ | ⟨rfl, rfl⟩ := hx
    · exact absurd rfl hxy
    · exact absurd rfl hyz
  intro hab
  rw [Attempt.wp_bind]
  -- a triple whose other premise is impossible is settled before the loop
  have hstart : Processing g₀ (fun x y z =>
      (∃ c ∈ (s.domains.upper.successors b).toList, x = a ∧ y = b ∧ z = c) ∨
        (y = a ∧ z = b)) s s := by
    refine ⟨h.except hg₀ fun x y z _ _ _ hx => ?_, .refl, rfl⟩
    obtain ⟨rfl, rfl⟩ | hx := hx
    · by_cases hP : s.domains.isPotential y z = true
      · exact .inr (.inl ⟨z, (Graph.mem_successors hvalid.upper).mpr hP, rfl, rfl, rfl⟩)
      · exact .inl (.of_not_second hvalid hP)
    · exact .inr (.inr hx)
  refine Attempt.wp_mono (visitEach_extend_wp hg₀
    (fun c X Y t ht hMt hX => extendForward_wp hg₀ hab ht hMt hX) hstart hM) ?_ fun _ _ hf => hf
  rintro _ t ⟨ht, hMt⟩
  have hvalid' := ht.filtering.valid hg₀
  have hmiddle : Processing g₀ (fun x y z =>
      (∃ c ∈ (t.domains.upper.predecessors a).toList, x = c ∧ y = a ∧ z = b) ∨ False) s t := by
    refine ⟨ht.filtering.except hg₀ fun x y z _ _ _ hx => ?_, ht.narrows, ht.budget_eq⟩
    obtain ⟨rfl, rfl⟩ := hx
    by_cases hP : t.domains.isPotential x y = true
    · exact .inr (.inl ⟨x, (Graph.mem_predecessors hvalid'.upper).mpr hP, rfl, rfl, rfl⟩)
    · exact .inl (.of_not_first hvalid' hP)
  refine Attempt.wp_mono (visitEach_extend_wp hg₀
    (fun c X Y u hu hMu hX => extendBackward_wp hg₀ hab hu hMu hX) hmiddle hMt) ?_
    fun _ _ hf => hf
  rintro _ u ⟨hu, -⟩
  exact ⟨hu.filtering, hu.budget_eq⟩

/-! ### Processing a removed edge -/

theorem edgeRemoved_wp (hg₀ : g₀.Valid) {a c : Nat}
    (h : Filtering g₀ (fun x _ z => x = a ∧ z = c) s)
    (hP : s.domains.isPotential a c = false) :
    (edgeRemoved a c).wp
      (fun _ s' => Filtering g₀ (fun _ _ _ => False) s' ∧ budget s' = budget s)
      (Failed g₀) s := by
  have hvalid := h.valid hg₀
  rw [edgeRemoved, Attempt.wp_ite]
  constructor
  · rintro rfl
    refine ⟨h.except hg₀ fun x y z _ _ hxz hx => ?_, rfl⟩
    exact absurd (hx.1.trans hx.2.symm) hxz
  intro hac
  rw [Attempt.wp_bind]
  -- the first loop leaves the triples whose first edge is not mandatory
  have hstart : Processing g₀ (fun x y z =>
      (x = a ∧ z = c ∧ y ∈ (s.domains.lower.successors a).toList) ∨
        (x = a ∧ z = c ∧ ¬ s.domains.isMandatory a y = true)) s s := by
    refine ⟨h.except hg₀ fun x y z _ _ _ hx => .inr ?_, .refl, rfl⟩
    by_cases hM : s.domains.isMandatory a y = true
    · exact .inl ⟨hx.1, hx.2, (Graph.mem_successors hvalid.lower).mpr hM⟩
    · exact .inr ⟨hx.1, hx.2, hM⟩
  have hsecond : ∀ m ∈ (s.domains.lower.successors a).toList, ∀ H ∈ g₀.transitiveGraphs,
      ¬ H.edge m c := fun m hm H hH =>
    h.not_path hH hac hP (h.edge hH ((Graph.mem_successors hvalid.lower).mp hm))
  refine Attempt.wp_mono (visitEach_remove_wp (p := fun m => m) (q := fun _ => c) hg₀
    (fun _ _ hg hnot => .of_not_second hg hnot) hsecond hstart) ?_ fun _ _ hf => hf
  rintro _ t ⟨ht, hlower⟩
  have hvalid' := ht.filtering.valid hg₀
  have hMt : ∀ x y, t.domains.isMandatory x y = s.domains.isMandatory x y := fun x y => by
    rw [GraphVar.isMandatory, hlower, GraphVar.isMandatory]
  have hmiddle : Processing g₀ (fun x y z =>
      (x = a ∧ z = c ∧ y ∈ (t.domains.lower.predecessors c).toList) ∨ False) s t := by
    refine ⟨ht.filtering.except hg₀ fun x y z _ _ _ hx => ?_, ht.narrows, ht.budget_eq⟩
    obtain ⟨rfl, rfl, hnot⟩ := hx
    by_cases hM : t.domains.isMandatory y z = true
    · exact .inr (.inl ⟨rfl, rfl, (Graph.mem_predecessors hvalid'.lower).mpr hM⟩)
    · exact .inl (.of_not_isMandatory (hMt x y ▸ hnot) hM)
  have hfirst : ∀ m ∈ (t.domains.lower.predecessors c).toList, ∀ H ∈ g₀.transitiveGraphs,
      ¬ H.edge a m := by
    intro m hm H hH ham
    have hM : s.domains.isMandatory m c = true :=
      (hMt m c).symm.trans ((Graph.mem_predecessors hvalid'.lower).mp hm)
    exact h.not_path hH hac hP ham (h.edge hH hM)
  refine Attempt.wp_mono (visitEach_remove_wp (p := fun _ => a) (q := fun m => m) hg₀
    (fun _ _ hg hnot => .of_not_first hg hnot) hfirst hmiddle) ?_ fun _ _ hf => hf
  rintro _ u ⟨hu, -⟩
  exact ⟨hu.filtering, hu.budget_eq⟩

end Transitivity

end GraphInterval
