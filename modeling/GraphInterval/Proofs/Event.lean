import Mathlib.Data.List.Nodup
import GraphInterval.Event

/-!
# What a monitor delivers

A chronicle tells the story of a log without any monitor: which events it
holds, when each of them was appended, and whether a window was open then.
Opening a window fixes what it has to deliver: the events from outside of all
windows that came after the last window and are still in the log.  A watch
runs a monitor beside a chronicle and records, for every replay, what was due
and what the monitor answered.

The monitor only knows two positions.  Between windows everything behind its
cursor is news and nothing before it is; in a window the events between the
cursor and the frozen end are those that were news when the window opened.
-/

namespace GraphInterval

/-- An event of a log, with the circumstances under which it was appended. -/
structure Occurrence where
  event : Event
  /-- The number of events that were ever appended before. -/
  time : Nat
  /-- The number of windows that had been closed. -/
  closed : Nat
  /-- No window was open. -/
  foreign : Bool
  deriving DecidableEq, Repr

/-- The story of a log. -/
structure Chronicle where
  /-- All events that were ever appended, also those that were undone. -/
  history : List Occurrence := []
  log : List Occurrence := []
  /-- The number of closed windows. -/
  closed : Nat := 0
  /-- What the open window has to deliver. -/
  window : Option (List Occurrence) := none
  deriving DecidableEq, Repr

namespace Chronicle

def events (c : Chronicle) : List Event := c.log.map Occurrence.event

/-- The event that is appended next, as an occurrence. -/
def next (c : Chronicle) (event : Event) : Occurrence :=
  { event, time := c.history.length, closed := c.closed, foreign := c.window.isNone }

def append (c : Chronicle) (event : Event) : Chronicle :=
  { c with history := c.history ++ [c.next event], log := c.log ++ [c.next event] }

/-- Whether an event was appended outside of every window and after the last of them. -/
def isNews (c : Chronicle) (o : Occurrence) : Bool := o.foreign && o.closed == c.closed

def freeze (c : Chronicle) : Chronicle := { c with window := some (c.log.filter c.isNews) }

def unfreeze (c : Chronicle) : Chronicle := { c with closed := c.closed + 1, window := none }

def truncate (c : Chronicle) (length : Nat) : Chronicle := { c with log := c.log.take length }

/-- What the open window has to deliver of some kinds. -/
def due (c : Chronicle) (kinds : List EventKind) : List Occurrence :=
  (c.window.getD []).filter fun o => kinds.contains o.event.kind

/-- A log that holds some events before the first window. -/
def start (events : List Event) : Chronicle := events.foldl append {}

end Chronicle

/-- What can happen to a log and to a monitor of it. -/
inductive Action where
  | append (event : Event)
  | freeze
  | replay (kinds : List EventKind)
  | unfreeze
  /-- The log is cut to a length and the monitor is told. -/
  | truncate (length : Nat)
  deriving DecidableEq, Repr

/-- Windows open and close in turn, replays happen in a window and the log is cut outside of it. -/
def Alternates : Bool → List Action → Prop
  | _, [] => True
  | frozen, .append _ :: rest => Alternates frozen rest
  | frozen, .freeze :: rest => frozen = false ∧ Alternates true rest
  | frozen, .replay _ :: rest => frozen = true ∧ Alternates frozen rest
  | frozen, .unfreeze :: rest => frozen = true ∧ Alternates false rest
  | frozen, .truncate _ :: rest => frozen = false ∧ Alternates frozen rest

instance Alternates.decide : (frozen : Bool) → (actions : List Action) →
    Decidable (Alternates frozen actions)
  | _, [] => inferInstanceAs (Decidable True)
  | frozen, .append _ :: rest => Alternates.decide frozen rest
  | frozen, .freeze :: rest =>
      @instDecidableAnd (frozen = false) (Alternates true rest) _ (Alternates.decide true rest)
  | frozen, .replay _ :: rest =>
      @instDecidableAnd (frozen = true) (Alternates frozen rest) _ (Alternates.decide frozen rest)
  | frozen, .unfreeze :: rest =>
      @instDecidableAnd (frozen = true) (Alternates false rest) _ (Alternates.decide false rest)
  | frozen, .truncate _ :: rest =>
      @instDecidableAnd (frozen = false) (Alternates frozen rest) _ (Alternates.decide frozen rest)

/-- One replay: what the window had to deliver, and what the monitor delivered. -/
structure Delivery where
  /-- The number of windows that were closed before. -/
  window : Nat
  due : List Occurrence
  answer : List Event
  deriving DecidableEq, Repr

/-- A log, a monitor of it, and the replays so far. -/
structure Watch where
  chronicle : Chronicle
  monitor : Monitor := {}
  deliveries : List Delivery := []
  deriving DecidableEq, Repr

namespace Watch

/-- The monitor sees the events of the log and nothing else of the chronicle. -/
def perform (w : Watch) : Action → Except Fault Watch
  | .append event => .ok { w with chronicle := w.chronicle.append event }
  | .freeze => do
      let monitor ← w.monitor.freeze w.chronicle.events.length
      return { w with chronicle := w.chronicle.freeze, monitor }
  | .replay kinds => do
      let answer ← w.monitor.replay w.chronicle.events kinds
      let delivery := { window := w.chronicle.closed, due := w.chronicle.due kinds, answer }
      return { w with deliveries := w.deliveries ++ [delivery] }
  | .unfreeze =>
      .ok { w with chronicle := w.chronicle.unfreeze,
                   monitor := w.monitor.unfreeze w.chronicle.events.length }
  | .truncate length =>
      let chronicle := w.chronicle.truncate length
      .ok { w with chronicle, monitor := w.monitor.synchronise chronicle.events.length }

def run (w : Watch) (actions : List Action) : Except Fault Watch := actions.foldlM perform w

end Watch

/-! ## The invariant -/

/-- The story is told in the order of time. -/
structure Chronicle.Ordered (c : Chronicle) : Prop where
  times : c.history.map Occurrence.time = List.range c.history.length
  log : c.log.Sublist c.history
  closed : ∀ o ∈ c.log, o.closed ≤ c.closed

/-- Where a monitor stands. -/
inductive Monitor.Follows (m : Monitor) (c : Chronicle) : Bool → Prop where
  | outside (window : c.window = none) (frozenAt : m.frozenAt = none)
      (bound : m.cursor ≤ c.log.length)
      (old : ∀ o ∈ c.log.take m.cursor, c.isNews o = false)
      (new : ∀ o ∈ c.log.drop m.cursor, c.isNews o = true) : m.Follows c false
  | inside (stop : Nat) (frozenAt : m.frozenAt = some stop) (bound : stop ≤ c.log.length)
      (window : c.window = some ((c.log.take stop).drop m.cursor))
      (new : ∀ o ∈ (c.log.take stop).drop m.cursor, c.isNews o = true) : m.Follows c true

/-- The answer is what was due, and that came from outside of every window. -/
structure Delivery.Exact (d : Delivery) (history : List Occurrence) : Prop where
  answer : d.answer = d.due.map Occurrence.event
  due : d.due.Sublist history
  foreign : ∀ o ∈ d.due, o.foreign = true
  window : ∀ o ∈ d.due, o.closed = d.window

structure Watch.Faithful (w : Watch) (frozen : Bool) : Prop where
  ordered : w.chronicle.Ordered
  follows : w.monitor.Follows w.chronicle frozen
  deliveries : ∀ d ∈ w.deliveries, d.Exact w.chronicle.history

/-! ## The story of the log -/

namespace Chronicle

theorem length_events (c : Chronicle) : c.events.length = c.log.length := List.length_map _

theorem Ordered.append {c : Chronicle} (h : c.Ordered) (event : Event) :
    (c.append event).Ordered where
  times := by
    simp only [Chronicle.append, List.map_append, h.times, List.map_cons, List.map_nil,
      List.length_append, List.length_cons, List.length_nil, List.range_succ, Nat.zero_add]
    rfl
  log := h.log.append (List.Sublist.refl _)
  closed o ho := by
    rcases List.mem_append.mp ho with hold | hnew
    · exact h.closed o hold
    · rw [List.mem_singleton.mp hnew]
      exact Nat.le_refl _

theorem Ordered.freeze {c : Chronicle} (h : c.Ordered) : c.freeze.Ordered :=
  ⟨h.times, h.log, h.closed⟩

theorem Ordered.unfreeze {c : Chronicle} (h : c.Ordered) : c.unfreeze.Ordered :=
  ⟨h.times, h.log, fun o ho => Nat.le_succ_of_le (h.closed o ho)⟩

theorem Ordered.truncate {c : Chronicle} (h : c.Ordered) (length : Nat) :
    (c.truncate length).Ordered :=
  ⟨h.times, (List.take_sublist length c.log).trans h.log,
    fun o ho => h.closed o (List.mem_of_mem_take ho)⟩

/-- The time tells the occurrences apart. -/
theorem Ordered.pairwise {c : Chronicle} (h : c.Ordered) :
    c.history.Pairwise fun o o' => o.time < o'.time := by
  have := List.pairwise_lt_range (n := c.history.length)
  rw [← h.times] at this
  exact List.pairwise_map.mp this

theorem Ordered.eq_of_time {c : Chronicle} (h : c.Ordered) {o o' : Occurrence}
    (ho : o ∈ c.history) (ho' : o' ∈ c.history) (htime : o.time = o'.time) : o = o' := by
  have hnodup : (c.history.map Occurrence.time).Nodup := by
    rw [h.times]
    exact List.nodup_range
  exact List.inj_on_of_nodup_map hnodup ho ho' htime

/-- Closing a window makes everything in the log old. -/
theorem Ordered.unfreeze_isNews {c : Chronicle} (h : c.Ordered) {o : Occurrence}
    (ho : o ∈ c.log) : c.unfreeze.isNews o = false := by
  have hle := h.closed o ho
  have hne : o.closed ≠ c.closed + 1 := by omega
  simp [isNews, Chronicle.unfreeze, hne]

end Chronicle

/-! ## The positions of the monitor -/

namespace Monitor.Follows

variable {m : Monitor} {c : Chronicle}

theorem start : ({} : Monitor).Follows {} false :=
  .outside rfl rfl (Nat.le_refl 0) (by simp) (by simp)

/-- An event from outside is news, one from inside a window stands behind its end. -/
theorem append {frozen : Bool} (h : m.Follows c frozen) (event : Event) :
    m.Follows (c.append event) frozen := by
  cases h with
  | outside window frozenAt bound old new =>
    have htake : (c.append event).log.take m.cursor = c.log.take m.cursor :=
      List.take_append_of_le_length bound
    have hdrop : (c.append event).log.drop m.cursor = c.log.drop m.cursor ++ [c.next event] :=
      List.drop_append_of_le_length bound
    have hnext : c.isNews (c.next event) = true := by
      simp [Chronicle.isNews, Chronicle.next, window]
    refine .outside window frozenAt ?_ ?_ ?_
    · exact Nat.le_trans bound (by simp [Chronicle.append])
    · rw [htake]
      exact old
    · rw [hdrop]
      intro o ho
      rcases List.mem_append.mp ho with hold | hlast
      · exact new o hold
      · rw [List.mem_singleton.mp hlast]
        exact hnext
  | inside stop frozenAt bound window new =>
    have htake : (c.append event).log.take stop = c.log.take stop :=
      List.take_append_of_le_length bound
    refine .inside stop frozenAt ?_ ?_ ?_
    · exact Nat.le_trans bound (by simp [Chronicle.append])
    · rw [htake]
      exact window
    · rw [htake]
      exact new

/-- The news of a log are the events behind the cursor. -/
theorem filter_isNews (h : m.Follows c false) : c.log.filter c.isNews = c.log.drop m.cursor := by
  cases h with
  | outside window frozenAt bound old new =>
    calc c.log.filter c.isNews
        = (c.log.take m.cursor ++ c.log.drop m.cursor).filter c.isNews := by
          rw [List.take_append_drop]
      _ = (c.log.take m.cursor).filter c.isNews ++ (c.log.drop m.cursor).filter c.isNews :=
          List.filter_append _ _
      _ = c.log.drop m.cursor := by
          rw [List.filter_eq_nil_iff.mpr (by simpa using old), List.filter_eq_self.mpr new,
            List.nil_append]

theorem freeze (h : m.Follows c false) :
    ∃ m', m.freeze c.events.length = .ok m' ∧ m'.Follows c.freeze true := by
  have hnews := h.filter_isNews
  cases h with
  | outside window frozenAt bound old new =>
    have htake : c.freeze.log.take c.log.length = c.log := List.take_length
    refine ⟨{ m with frozenAt := some c.log.length }, ?_, ?_⟩
    · simp [Monitor.freeze, frozenAt, c.length_events]
    · refine .inside c.log.length rfl (Nat.le_refl _) ?_ ?_
      · rw [htake, ← hnews]
        rfl
      · rw [htake]
        exact new

/-- A replay delivers what was news when the window opened. -/
theorem replay (h : m.Follows c true) (kinds : List EventKind) :
    m.replay c.events kinds = .ok ((c.due kinds).map Occurrence.event) := by
  cases h with
  | inside stop frozenAt bound window new =>
    have hbound : stop ≤ c.events.length := by
      rw [c.length_events]
      exact bound
    have hwindow : (c.events.take stop).drop m.cursor
        = ((c.log.take stop).drop m.cursor).map Occurrence.event := by
      rw [Chronicle.events, ← List.map_take, ← List.map_drop]
    simp only [Monitor.replay, frozenAt, if_pos hbound, hwindow, Chronicle.due, window,
      Option.getD_some, List.filter_map]
    rfl

theorem unfreeze {frozen : Bool} (_ : m.Follows c frozen) (hc : c.Ordered) :
    (m.unfreeze c.events.length).Follows c.unfreeze false := by
  have hlength : (m.unfreeze c.events.length).cursor = c.unfreeze.log.length := c.length_events
  refine .outside rfl rfl ?_ ?_ ?_
  · exact Nat.le_of_eq hlength
  · rw [hlength, List.take_length]
    intro o ho
    exact hc.unfreeze_isNews ho
  · rw [hlength, List.drop_length]
    simp

/-- Cutting the log takes news away behind the cursor, or all of them and old events too. -/
theorem truncate (h : m.Follows c false) (length : Nat) :
    (m.synchronise (c.truncate length).events.length).Follows (c.truncate length) false := by
  cases h with
  | outside window frozenAt bound old new =>
    have hlength : (c.truncate length).events.length = min length c.log.length := by
      rw [Chronicle.length_events]
      exact List.length_take
    have hcursor : (m.synchronise (c.truncate length).events.length).cursor
        = min m.cursor length := by
      simp only [Monitor.synchronise, hlength]
      omega
    refine .outside window rfl ?_ ?_ ?_
    · rw [hcursor, ← Chronicle.length_events, hlength]
      omega
    · intro o ho
      rw [hcursor] at ho
      have htake : (c.log.take length).take (min m.cursor length)
          = (c.log.take m.cursor).take length := by
        rw [List.take_take, List.take_take]
        congr 1
        omega
      exact old o (List.mem_of_mem_take (htake ▸ ho))
    · intro o ho
      rw [hcursor] at ho
      rcases Nat.le_total m.cursor length with hle | hle
      · rw [Nat.min_eq_left hle] at ho
        have hdrop : (c.log.take length).drop m.cursor
            = (c.log.drop m.cursor).take (length - m.cursor) := List.drop_take
        exact new o (List.mem_of_mem_take (hdrop ▸ ho))
      · rw [Nat.min_eq_right hle] at ho
        have hdrop : (c.log.take length).drop length = [] :=
          List.drop_eq_nil_of_le (List.length_take_le length c.log)
        rw [Chronicle.truncate, hdrop] at ho
        cases ho

/-- What a window has to deliver came from outside and after the last window. -/
theorem due_news (h : m.Follows c true) {kinds : List EventKind} {o : Occurrence}
    (ho : o ∈ c.due kinds) : o.foreign = true ∧ o.closed = c.closed := by
  have ho := List.mem_of_mem_filter ho
  cases h with
  | inside stop frozenAt bound window new =>
    rw [window] at ho
    simpa [Chronicle.isNews] using new o ho

theorem due_sublist (h : m.Follows c true) (kinds : List EventKind) :
    (c.due kinds).Sublist c.log := by
  apply List.filter_sublist.trans
  cases h with
  | inside stop frozenAt bound window new =>
    rw [window]
    exact (List.drop_sublist _ _).trans (List.take_sublist _ _)

end Monitor.Follows

/-! ## Every run -/

namespace Delivery

/-- Further appends change nothing about a past delivery. -/
theorem Exact.mono {d : Delivery} {history history' : List Occurrence}
    (h : d.Exact history) (hsub : history.Sublist history') : d.Exact history' :=
  ⟨h.answer, h.due.trans hsub, h.foreign, h.window⟩

end Delivery

namespace Watch

/-- The whole story before the first window. -/
def start (events : List Event) : Watch := { chronicle := .start events }

variable {w : Watch} {frozen : Bool}

theorem Faithful.append (h : w.Faithful frozen) (event : Event) :
    Faithful { w with chronicle := w.chronicle.append event } frozen where
  ordered := h.ordered.append event
  follows := h.follows.append event
  deliveries d hd := (h.deliveries d hd).mono (List.sublist_append_left _ _)

theorem Faithful.start (events : List Event) : (Watch.start events).Faithful false := by
  suffices h : ∀ (events : List Event) (c : Chronicle), Faithful { chronicle := c } false →
      Faithful { chronicle := events.foldl Chronicle.append c } false from
    h events {} ⟨⟨rfl, List.Sublist.refl _, by simp⟩, Monitor.Follows.start, by simp⟩
  intro events
  induction events with
  | nil => exact fun c h => h
  | cons event events ih => exact fun c h => ih _ (h.append event)

theorem Faithful.replay (h : w.Faithful true) (kinds : List EventKind) :
    ∃ w', w.perform (.replay kinds) = .ok w' ∧ w'.Faithful true := by
  let delivery : Delivery :=
    { window := w.chronicle.closed
      due := w.chronicle.due kinds
      answer := (w.chronicle.due kinds).map Occurrence.event }
  have hexact : delivery.Exact w.chronicle.history :=
    ⟨rfl, (h.follows.due_sublist kinds).trans h.ordered.log,
      fun o ho => (h.follows.due_news ho).1, fun o ho => (h.follows.due_news ho).2⟩
  refine ⟨{ w with deliveries := w.deliveries ++ [delivery] }, ?_, h.ordered, h.follows, ?_⟩
  · rw [perform, h.follows.replay kinds]
    rfl
  · intro d hd
    rcases List.mem_append.mp hd with hold | hlast
    · exact h.deliveries d hold
    · rw [List.mem_singleton.mp hlast]
      exact hexact

/-- A run in which windows and actions alternate never stops and keeps the invariant. -/
theorem Faithful.run {actions : List Action} (h : w.Faithful frozen)
    (halt : Alternates frozen actions) :
    ∃ w' frozen', w.run actions = .ok w' ∧ w'.Faithful frozen' := by
  induction actions generalizing w frozen with
  | nil => exact ⟨w, frozen, rfl, h⟩
  | cons action rest ih =>
    suffices hstep : ∃ w' frozen', w.perform action = .ok w' ∧ w'.Faithful frozen' ∧
        Alternates frozen' rest by
      obtain ⟨w', frozen', hperform, hfaithful, hrest⟩ := hstep
      obtain ⟨w'', frozen'', hrun, hend⟩ := ih hfaithful hrest
      refine ⟨w'', frozen'', ?_, hend⟩
      rw [Watch.run, List.foldlM_cons, hperform]
      exact hrun
    cases action with
    | append event => exact ⟨_, frozen, rfl, h.append event, halt⟩
    | freeze =>
      obtain ⟨rfl, hrest⟩ := halt
      obtain ⟨m, hfreeze, hfollows⟩ := h.follows.freeze
      refine ⟨_, true, by simp only [perform, hfreeze]; rfl, ?_, hrest⟩
      exact ⟨h.ordered.freeze, hfollows, h.deliveries⟩
    | replay kinds =>
      obtain ⟨rfl, hrest⟩ := halt
      obtain ⟨w', hperform, hfaithful⟩ := h.replay kinds
      exact ⟨w', true, hperform, hfaithful, hrest⟩
    | unfreeze =>
      obtain ⟨rfl, hrest⟩ := halt
      exact ⟨_, false, rfl, ⟨h.ordered.unfreeze, h.follows.unfreeze h.ordered, h.deliveries⟩, hrest⟩
    | truncate length =>
      obtain ⟨rfl, hrest⟩ := halt
      exact ⟨_, false, rfl, ⟨h.ordered.truncate length, h.follows.truncate length, h.deliveries⟩,
        hrest⟩

/-- Every replay yields, in the order of the log, what its window had to deliver.  Nothing that
was appended during a window is ever delivered, and nothing is delivered in two windows. -/
theorem delivers_once (events : List Event) (actions : List Action)
    (h : Alternates false actions) :
    ∃ w, (start events).run actions = .ok w ∧ ∀ d ∈ w.deliveries,
      d.answer = d.due.map Occurrence.event ∧
      d.due.Pairwise (fun o o' => o.time < o'.time) ∧
      ∀ o ∈ d.due, o.foreign = true ∧
        ∀ d' ∈ w.deliveries, ∀ o' ∈ d'.due, o.time = o'.time → d.window = d'.window := by
  obtain ⟨w, frozen, hrun, hw⟩ := (Faithful.start events).run h
  refine ⟨w, hrun, fun d hd => ?_⟩
  have hexact := hw.deliveries d hd
  refine ⟨hexact.answer, hw.ordered.pairwise.sublist hexact.due, fun o ho => ?_⟩
  refine ⟨hexact.foreign o ho, fun d' hd' o' ho' htime => ?_⟩
  have hexact' := hw.deliveries d' hd'
  have hsame : o = o' :=
    hw.ordered.eq_of_time (hexact.due.subset ho) (hexact'.due.subset ho') htime
  calc d.window = o.closed := (hexact.window o ho).symm
    _ = o'.closed := by rw [hsame]
    _ = d'.window := hexact'.window o' ho'

/-- Two windows, with an event of the first window's own and with news that are undone. -/
def interleaving : List Action :=
  [.append (.edgeEnforced 0 1), .freeze, .replay EventKind.all, .append (.edgeRemoved 1 2),
    .unfreeze, .append (.edgeRemoved 0 2), .append (.nodeRemoved 2), .truncate 4,
    .append (.edgeRemoved 0 3), .freeze, .append (.nodeRemoved 3), .replay EventKind.edgeEvents,
    .unfreeze]

theorem delivers_once_interleaving : Alternates false interleaving ∧
    ∃ w, (start [.nodeEnforced 0]).run interleaving = .ok w ∧
      w.deliveries.map Delivery.answer =
        [[.nodeEnforced 0, .edgeEnforced 0 1], [.edgeRemoved 0 2, .edgeRemoved 0 3]] ∧
      ∀ d ∈ w.deliveries, d.answer = d.due.map Occurrence.event ∧
        ∀ o ∈ d.due, o.foreign = true := by
  have halt : Alternates false interleaving := by decide
  obtain ⟨w, hrun, hall⟩ := delivers_once [.nodeEnforced 0] interleaving halt
  have hw : w = (((start [.nodeEnforced 0]).run interleaving).toOption.getD w) := by rw [hrun]; rfl
  refine ⟨halt, w, hrun, ?_, fun d hd => ⟨(hall d hd).1, fun o ho => ((hall d hd).2.2 o ho).1⟩⟩
  rw [hw]
  rfl

end Watch

end GraphInterval
