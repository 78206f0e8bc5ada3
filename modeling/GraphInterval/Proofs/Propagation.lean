import GraphInterval.Propagation
import GraphInterval.Proofs.Attempt

/-!
# Going through a buffer

What is visited while the domains change is listed in a buffer before.  The
buffer is emptied first, so the visits are those of the list, whatever the
buffer held; and the domains are still the ones that were listed when the first
visit starts.
-/

namespace GraphInterval

namespace Posted

variable {π δ β : Type} {buffer : Buffer π β} {listed : δ → List β}
variable {visit : β → Attempt (Posted π δ) Unit}

/-- The state with a list in a buffer of the propagator. -/
def holding (buffer : Buffer π β) (l : List β) (s : Posted π δ) : Posted π δ :=
  { s with propagator := buffer.store s.propagator l }

/-- Visits go through the list of the domains, whatever the buffer held before. -/
theorem visitEach_eq (s : Posted π δ) :
    visitEach buffer listed visit s =
      (listed s.domains).forM visit (s.holding buffer (listed s.domains)) := by
  have hfilled : (s.holding buffer []).holding buffer
      (buffer.content (buffer.store s.propagator []) ++ listed s.domains) =
      s.holding buffer (listed s.domains) := by
    rw [buffer.content_store, List.nil_append, holding, holding, buffer.store_store]
    rfl
  change (buffer.content (Posted.propagator (holding buffer _ (s.holding buffer [])))).forM visit
    (holding buffer _ (s.holding buffer [])) = _
  rw [hfilled, holding, buffer.content_store]

theorem wp_visitEach {Q : Unit → Posted π δ → Prop} {E : Failure → Posted π δ → Prop}
    {s : Posted π δ} : (visitEach buffer listed visit).wp Q E s ↔
      ((listed s.domains).forM visit).wp Q E (s.holding buffer (listed s.domains)) := by
  rw [Attempt.wp, visitEach_eq]
  rfl

/-- Visits keep an invariant that does not depend on the buffer. -/
theorem keeps_visitEach {I : Posted π δ → Prop} {E : Failure → Posted π δ → Prop}
    (hbuffer : ∀ s l, I s → I (s.holding buffer l)) (hvisit : ∀ b, Attempt.Keeps I E (visit b)) :
    Attempt.Keeps I E (visitEach buffer listed visit) := by
  intro s hs
  rw [wp_visitEach]
  exact Attempt.Keeps.forM hvisit _ _ (hbuffer s _ hs)

end Posted

end GraphInterval
