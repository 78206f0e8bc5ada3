import GraphInterval.Proofs.Chain
import GraphInterval.Proofs.Tree.Rooted

/-!
# Contracting tree edges

Edges of a rooted tree are contracted one by one, and every node has a
shortcut that skips contracted edges only: a node with an edge above it that is
not contracted points to itself.  Following the shortcuts from a node therefore
ends at its lowest ancestor below an edge that is left.
-/

namespace GraphInterval

/-- Climbing from one node leads to the other, through nodes of a set only. -/
def Climbs (A : ℕ → Prop) (up : ℕ → ℕ) : ℕ → ℕ → Prop :=
  Relation.ReflTransGen fun x y => A x ∧ up x = y

variable {V : Finset ℕ} {T : Finset (Sym2 ℕ)} {up depth jump : ℕ → ℕ} {r t u v x : ℕ}

namespace Climbs

variable {A B : ℕ → Prop}

theorem mono (h : Climbs A up v t) (hAB : ∀ x, A x → B x) : Climbs B up v t :=
  Relation.ReflTransGen.mono (fun x _ hx => ⟨hAB x hx.1, hx.2⟩) _ _ h

theorem trans (hvu : Climbs A up v u) (hut : Climbs A up u t) : Climbs A up v t :=
  Relation.ReflTransGen.trans hvu hut

theorem below (h : Climbs A up v t) : Below up v t :=
  Relation.ReflTransGen.mono (fun _ _ hx => hx.2) _ _ h

/-- A node that a climb does not pass through is above its end. -/
theorem below_of_not (h : Climbs A up v t) (hvu : Below up v u) (hu : ¬ A u) : Below up t u := by
  induction h using Relation.ReflTransGen.head_induction_on with
  | refl => exact hvu
  | @head x _ hstep _ ih =>
      obtain ⟨hx, rfl⟩ := hstep
      obtain rfl | hnext := hvu.eq_or_next
      · exact absurd hx hu
      · exact ih hnext

end Climbs

/-- Shortcuts skip contracted edges only; the nodes below these are the ones that do not point to
themselves. -/
structure Shortcuts (V : Finset ℕ) (r : ℕ) (up jump : ℕ → ℕ) : Prop where
  inside : ∀ v, jump v ≠ v → v ∈ V ∧ v ≠ r
  climbs : ∀ v, Climbs (fun x => jump x ≠ x) up v (jump v)

namespace Shortcuts

theorem start (V : Finset ℕ) (r : ℕ) (up : ℕ → ℕ) (hjump : ∀ v, jump v = v) :
    Shortcuts V r up jump := by
  refine ⟨fun v hv => absurd (hjump v) hv, fun v => ?_⟩
  rw [hjump]
  exact Relation.ReflTransGen.refl

theorem climbs_of_leads (h : Shortcuts V r up jump) (hvt : Leads jump v t) :
    Climbs (fun x => jump x ≠ x) up v t := by
  induction hvt with
  | stop => exact Relation.ReflTransGen.refl
  | step _ _ ih => exact (h.climbs _).trans ih

theorem descends (h : Shortcuts V r up jump) (hT : IsRootedTree V T r up)
    (hdepth : IsDepth V r up depth) : Descends jump depth := fun v hv =>
  (hdepth.eq_or_lt hT (h.inside v hv).1 (h.climbs v).below).resolve_left (Ne.symm hv)

theorem mem_of_leads (h : Shortcuts V r up jump) (hT : IsRootedTree V T r up)
    (hvt : Leads jump v t) (hv : v ∈ V) : t ∈ V :=
  (h.climbs_of_leads hvt).below.closed (fun _ hx => hT.up_mem hx) hv

/-- Skipping the next shortcut contracts nothing. -/
theorem halve (h : Shortcuts V r up jump) (hT : IsRootedTree V T r up)
    (hdepth : IsDepth V r up depth) (hx : jump x ≠ x) :
    Shortcuts V r up (Function.update jump x (jump (jump x))) := by
  have hfixed : ∀ v, jump v ≠ v → Function.update jump x (jump (jump x)) v ≠ v := by
    intro v hv
    by_cases hvx : v = x
    · subst hvx
      rw [Function.update_self]
      intro heq
      have hnext := h.descends hT hdepth v hv
      by_cases hend : jump (jump v) = jump v
      · exact hv (hend.symm.trans heq)
      · have hnext' := h.descends hT hdepth (jump v) hend
        rw [heq] at hnext'
        omega
    · rwa [Function.update_of_ne hvx]
  constructor
  · intro v hv
    by_cases hvx : v = x
    · exact hvx ▸ h.inside x hx
    · rw [Function.update_of_ne hvx] at hv
      exact h.inside v hv
  · intro v
    by_cases hvx : v = x
    · subst hvx
      rw [Function.update_self]
      exact ((h.climbs v).trans (h.climbs (jump v))).mono hfixed
    · rw [Function.update_of_ne hvx]
      exact (h.climbs v).mono hfixed

/-- Contracting the edge above a node. -/
theorem contract (h : Shortcuts V r up jump) (hT : IsRootedTree V T r up) (hx : x ∈ V)
    (hxr : x ≠ r) : Shortcuts V r up (Function.update jump x (up x)) ∧
      ∀ v, Function.update jump x (up x) v ≠ v ↔ jump v ≠ v ∨ v = x := by
  have hne : up x ≠ x := fun heq => hT.tree.forest.ne (hT.edge x hx hxr) heq.symm
  have hiff : ∀ v, Function.update jump x (up x) v ≠ v ↔ jump v ≠ v ∨ v = x := by
    intro v
    by_cases hvx : v = x
    · subst hvx
      rw [Function.update_self]
      exact iff_of_true hne (.inr rfl)
    · rw [Function.update_of_ne hvx]
      exact (or_iff_left hvx).symm
  refine ⟨⟨fun v hv => ?_, fun v => ?_⟩, hiff⟩
  · obtain hv | rfl := (hiff v).mp hv
    · exact h.inside v hv
    · exact ⟨hx, hxr⟩
  · by_cases hvx : v = x
    · subst hvx
      rw [Function.update_self]
      exact Relation.ReflTransGen.single ⟨(hiff v).mpr (.inr rfl), rfl⟩
    · rw [Function.update_of_ne hvx]
      exact (h.climbs v).mono fun y hy => (hiff y).mpr (.inl hy)

/-- The deeper one of two different ends is below an edge of the path between two nodes. -/
theorem not_below_of_deeper (h : Shortcuts V r up jump) (hT : IsRootedTree V T r up)
    (hdepth : IsDepth V r up depth) (hv : v ∈ V) (hvt : Leads jump v t) (hx : jump x = x)
    (hxt : x ≠ t) (hle : depth t ≤ depth x) : ¬ Below up v x := by
  intro hvx
  have htx := (h.climbs_of_leads hvt).below_of_not hvx fun hne => hne hx
  obtain heq | hless := hdepth.eq_or_lt hT (h.mem_of_leads hT hvt hv) htx
  · exact hxt heq.symm
  · omega

/-- A node above just one of two nodes with a common end is contracted. -/
theorem contracted_of_common_end (h : Shortcuts V r up jump) (hvt : Leads jump v t)
    (hut : Leads jump u t) (hvx : Below up v x) (hux : ¬ Below up u x) : jump x ≠ x := by
  intro hx
  have htx := (h.climbs_of_leads hvt).below_of_not hvx fun hne => hne hx
  exact hux ((h.climbs_of_leads hut).below.trans htx)

end Shortcuts

end GraphInterval
