import Mathlib.Data.List.Induction
import StepSequencer.Playback.Run
import StepSequencer.Proofs.Attempts

/-!
# The order of a run

What a run does over any list of events. A run is a fold of `Run.meet`, which handles one event and
then checks the limit, so everything here is one step first and the fold afterwards.

## Ticks follow the counter

`Run.InStep` is the invariant: after `n` ticks the scheduler is `n` steps ahead of where it
started, the reports are those of the steps passed, and the player was asked for just these. It
rests on `Run.tick` alone; pausing, resuming and the checks of the limit change none of the four
fields it speaks of.

## What stops a run

* `goOn_of_isOver`: nothing happens after the end, which is why a stop that a run meets is the last
  event that counts.
* `IsHeld.goOn`: a paused run stays where it is until it is resumed.
* `endCause_of_ended`: each reason for an end comes from the event, or the count, that it names.

`ofEvents_orderly` puts these together. A run does not look at a clock: the events say when a
deadline passed, so all the timings of the same messages are among the lists it speaks of.
-/

namespace StepSequencer

namespace StepCounter

/-- The counter a number of steps later. -/
def ahead (c : StepCounter) : Nat → StepCounter
  | 0 => c
  | n + 1 => (c.ahead n).advance

@[simp] theorem ahead_length (c : StepCounter) (n : Nat) : (c.ahead n).length = c.length := by
  induction n with
  | zero => rfl
  | succ n ih => rw [ahead, advance_length, ih]

/-- Steps are counted modulo the length of the loop: none is left out and none comes twice. -/
theorem ahead_position (c : StepCounter) (n : Nat) :
    (c.ahead n).position = (c.position + n) % c.length := by
  induction n with
  | zero => exact (Nat.mod_eq_of_lt c.position_lt).symm
  | succ n ih => rw [ahead, advance_position, ih, ahead_length, Nat.mod_add_mod, Nat.add_assoc]

end StepCounter

namespace Scheduler

open Attempts

variable {σ : Type}

/-- The scheduler a number of ticks later. -/
def ahead (s : Scheduler) (n : Nat) : Scheduler := { s with counter := s.counter.ahead n }

/-- The player after the first ticks of a scheduler. -/
def playedBy (p : Player σ) (s : Scheduler) (player : σ) : Nat → σ
  | 0 => player
  | n + 1 => ((s.ahead n).tick p (s.playedBy p player n)).player

/-- The counter goes round the steps of the track. -/
def FollowsTrack (s : Scheduler) : Prop := s.counter.length = max s.track.stepCount.toNat 1

/-- The scheduler of a track is at the first of its steps. -/
theorem ofTrack_eq_ok {t : Track} {s : Scheduler} (h : ofTrack t = .ok s) :
    s.track = t ∧ s.counter = .start t.stepCount.toNat := by
  obtain ⟨interval, -, hs⟩ := bind_eq_ok_iff.mp h
  obtain rfl := Except.ok.inj hs
  exact ⟨rfl, rfl⟩

theorem followsTrack_of_ofTrack {t : Track} {s : Scheduler} (h : ofTrack t = .ok s) :
    s.FollowsTrack := by
  obtain ⟨htrack, hcounter⟩ := ofTrack_eq_ok h
  rw [FollowsTrack, htrack, hcounter]
  rfl

end Scheduler

namespace Run

variable {σ : Type} {p : Player σ} {limit : Option Nat} {s : Scheduler} {player : σ}

/-! ### One step -/

/-- Whether the run is over. -/
def IsOver (r : Run σ) : Prop := ∃ reason, r.state = .ended reason

/-- After its ticks so far a run stands that many steps ahead of its start, with one report for each
of them, in order, and the player was asked for just these. -/
structure InStep (p : Player σ) (s : Scheduler) (player : σ) (r : Run σ) : Prop where
  scheduler : r.scheduler = s.ahead r.ticks
  reports : r.reports = (List.range r.ticks).map fun k ↦ (s.ahead k).report
  player : r.player = s.playedBy p player r.ticks

/-- A run begins in step. -/
theorem inStep_start : InStep p s player (start s player) := ⟨rfl, rfl, rfl⟩

/-- A tick takes one step and reports it. -/
theorem InStep.tick {r : Run σ} (h : InStep p s player r) : InStep p s player (r.tick p) where
  scheduler := by
    show r.scheduler.advance = s.ahead (r.ticks + 1)
    rw [h.scheduler]
    rfl
  reports := by
    show r.reports ++ [r.scheduler.report] = _
    rw [h.reports, h.scheduler, Run.tick, List.range_succ, List.map_append]
    rfl
  player := by
    show (r.scheduler.tick p r.player).player = s.playedBy p player (r.ticks + 1)
    rw [h.scheduler, h.player]
    rfl

/-- An event leads to a tick, or leaves the scheduler, the player, the count and the reports as they
are. -/
theorem handle_eq_tick_or (p : Player σ) (r : Run σ) (e : RunEvent) :
    r.handle p e = r.tick p ∧ r.state = .playing ∨
      (r.handle p e).scheduler = r.scheduler ∧ (r.handle p e).player = r.player ∧
        (r.handle p e).ticks = r.ticks ∧ (r.handle p e).reports = r.reports := by
  unfold handle
  split
  case h_5 hs | h_6 hs => exact .inl ⟨rfl, hs⟩
  all_goals exact .inr ⟨rfl, rfl, rfl, rfl⟩

/-- The check of the limit changes nothing but the state and the log. -/
theorem checkLimit_fields (limit : Option Nat) (r : Run σ) :
    (r.checkLimit limit).scheduler = r.scheduler ∧ (r.checkLimit limit).player = r.player ∧
      (r.checkLimit limit).ticks = r.ticks ∧ (r.checkLimit limit).reports = r.reports := by
  unfold checkLimit
  split
  · exact ⟨rfl, rfl, rfl, rfl⟩
  · split <;> exact ⟨rfl, rfl, rfl, rfl⟩
  · exact ⟨rfl, rfl, rfl, rfl⟩

@[simp] theorem checkLimit_ticks (limit : Option Nat) (r : Run σ) :
    (r.checkLimit limit).ticks = r.ticks := (checkLimit_fields limit r).2.2.1

@[simp] theorem checkLimit_reports (limit : Option Nat) (r : Run σ) :
    (r.checkLimit limit).reports = r.reports := (checkLimit_fields limit r).2.2.2

theorem InStep.of_fields {r r' : Run σ} (h : InStep p s player r)
    (hr : r'.scheduler = r.scheduler ∧ r'.player = r.player ∧ r'.ticks = r.ticks ∧
      r'.reports = r.reports) : InStep p s player r' := by
  obtain ⟨hscheduler, hplayer, hticks, hreports⟩ := hr
  exact ⟨by rw [hscheduler, hticks, h.scheduler], by rw [hreports, hticks, h.reports],
    by rw [hplayer, hticks, h.player]⟩

/-- Any event keeps a run in step. -/
theorem InStep.handle {r : Run σ} (h : InStep p s player r) (e : RunEvent) :
    InStep p s player (r.handle p e) := by
  rcases handle_eq_tick_or p r e with ⟨htick, -⟩ | hsame
  · rw [htick]
    exact h.tick
  · exact h.of_fields hsame

theorem InStep.checkLimit {r : Run σ} (h : InStep p s player r) (limit : Option Nat) :
    InStep p s player (r.checkLimit limit) :=
  h.of_fields (checkLimit_fields limit r)

/-! ### The check of the limit -/

/-- A run that goes on after the check has ticks left. -/
theorem ticks_lt_of_checkLimit {r : Run σ} (h : ¬(r.checkLimit limit).IsOver) :
    ∀ most ∈ limit, r.ticks < most := by
  rintro most rfl
  refine Nat.lt_of_not_le fun hle ↦ h ?_
  rcases hs : r.state with - | - | reason <;> simp only [Run.checkLimit, hs]
  case ended => exact ⟨reason, hs⟩
  all_goals
    rw [if_pos hle]
    exact ⟨.limitReached, rfl⟩

/-- The check either leaves the run as it is or ends it because of the limit. -/
theorem checkLimit_cases (limit : Option Nat) (r : Run σ) :
    r.checkLimit limit = r ∨
      (r.checkLimit limit).state = .ended .limitReached ∧ ∃ most ∈ limit, most ≤ r.ticks := by
  unfold checkLimit
  split
  · exact .inl rfl
  · next most _ =>
    split
    · next hle => exact .inr ⟨rfl, most, rfl, hle⟩
    · exact .inl rfl
  · exact .inl rfl

/-- A run that is over is checked no more. -/
theorem checkLimit_of_isOver {r : Run σ} (h : r.IsOver) : r.checkLimit limit = r := by
  obtain ⟨reason, hs⟩ := h
  unfold checkLimit
  rw [hs]

/-- A run that is over meets nothing. -/
theorem handle_of_isOver {r : Run σ} (h : r.IsOver) (e : RunEvent) : r.handle p e = r := by
  obtain ⟨reason, hs⟩ := h
  unfold handle
  rw [hs]

/-! ### One event -/

/-- The run after one event and the check that follows it. -/
def meet (p : Player σ) (limit : Option Nat) (r : Run σ) (e : RunEvent) : Run σ :=
  (r.handle p e).checkLimit limit

theorem meet_of_isOver {r : Run σ} (h : r.IsOver) (e : RunEvent) : r.meet p limit e = r := by
  rw [meet, handle_of_isOver h, checkLimit_of_isOver h]

theorem InStep.meet {r : Run σ} (h : InStep p s player r) (e : RunEvent) :
    InStep p s player (r.meet p limit e) :=
  (h.handle e).checkLimit limit

/-- There are no more ticks than the limit allows, and one is left as long as the run goes on. -/
def WithinLimit (limit : Option Nat) (r : Run σ) : Prop :=
  ∀ most ∈ limit, r.ticks ≤ most ∧ (¬r.IsOver → r.ticks < most)

/-- The first check keeps a run within its limit. -/
theorem withinLimit_start : WithinLimit limit ((start s player).checkLimit limit) := by
  intro most hmost
  refine ⟨?_, fun hover ↦ ?_⟩
  · rw [checkLimit_ticks]
    exact Nat.zero_le most
  · rw [checkLimit_ticks]
    exact ticks_lt_of_checkLimit hover most hmost

/-- An event keeps a run within its limit. -/
theorem WithinLimit.meet {r : Run σ} (h : WithinLimit limit r) (e : RunEvent) :
    WithinLimit limit (r.meet p limit e) := by
  intro most hmost
  obtain ⟨hle, hlt⟩ := h most hmost
  refine ⟨?_, fun hover ↦ ?_⟩
  · rw [Run.meet, checkLimit_ticks]
    rcases handle_eq_tick_or p r e with ⟨htick, hplaying⟩ | ⟨-, -, hticks, -⟩
    · have hgoing : ¬r.IsOver := by
        rintro ⟨reason, hended⟩
        cases hplaying.symm.trans hended
      rw [htick]
      exact hlt hgoing
    · rw [hticks]
      exact hle
  · rw [Run.meet, checkLimit_ticks]
    exact ticks_lt_of_checkLimit hover most hmost

/-- A run that is paused or over. -/
def IsHeld (r : Run σ) : Prop := r.state = .paused ∨ r.IsOver

theorem IsHeld.checkLimit {r : Run σ} (h : r.IsHeld) (limit : Option Nat) :
    (r.checkLimit limit).IsHeld := by
  rcases checkLimit_cases limit r with hsame | ⟨hended, -⟩
  · rw [hsame]
    exact h
  · exact .inr ⟨.limitReached, hended⟩

/-- Only being resumed sets a held run going. -/
theorem IsHeld.handle {r : Run σ} (h : r.IsHeld) {e : RunEvent} (he : e ≠ .control .resume) :
    (r.handle p e).IsHeld ∧ (r.handle p e).reports = r.reports := by
  rcases h with hpaused | hover
  · rcases e with (_ | _ | _) | _ | _ <;> simp only [Run.handle, hpaused]
    case control.resume => exact absurd rfl he
    case control.stop => exact ⟨.inr ⟨.stopped, rfl⟩, rfl⟩
    case hangUp => exact ⟨.inr ⟨.abandoned, rfl⟩, rfl⟩
    all_goals exact ⟨.inl hpaused, trivial⟩
  · rw [handle_of_isOver hover]
    exact ⟨.inr hover, rfl⟩

theorem IsHeld.meet {r : Run σ} (h : r.IsHeld) (p : Player σ) (limit : Option Nat) {e : RunEvent}
    (he : e ≠ .control .resume) :
    (r.meet p limit e).IsHeld ∧ (r.meet p limit e).reports = r.reports := by
  obtain ⟨hheld, hreports⟩ := h.handle (p := p) he
  exact ⟨hheld.checkLimit limit, by rw [Run.meet, checkLimit_reports, hreports]⟩

/-- A pause holds a run where it is. -/
theorem isHeld_meet_pause (p : Player σ) (limit : Option Nat) (r : Run σ) :
    (r.meet p limit (.control .pause)).IsHeld ∧
      (r.meet p limit (.control .pause)).reports = r.reports := by
  have hheld : (r.handle p (.control .pause)).IsHeld ∧
      (r.handle p (.control .pause)).reports = r.reports := by
    rcases hs : r.state with - | - | reason <;> simp only [Run.handle, hs]
    · exact ⟨.inl rfl, rfl⟩
    · exact ⟨.inl hs, trivial⟩
    · exact ⟨.inr ⟨reason, hs⟩, trivial⟩
  exact ⟨hheld.1.checkLimit limit, by rw [Run.meet, checkLimit_reports, hheld.2]⟩

/-- A stop ends a run where it is. -/
theorem isOver_meet_stop (p : Player σ) (limit : Option Nat) (r : Run σ) :
    (r.meet p limit (.control .stop)).IsOver ∧
      (r.meet p limit (.control .stop)).reports = r.reports := by
  rcases hs : r.state with - | - | reason
  case ended => exact (meet_of_isOver ⟨reason, hs⟩ _).symm ▸ ⟨⟨reason, hs⟩, rfl⟩
  all_goals
    have hstop : r.handle p (.control .stop) = r.finish .stopped := by simp only [Run.handle, hs]
    rw [Run.meet, hstop, checkLimit_of_isOver ⟨.stopped, rfl⟩]
    exact ⟨⟨.stopped, rfl⟩, rfl⟩

/-! ### Any number of events -/

theorem ofEvents_eq_foldl (events : List RunEvent) :
    ofEvents p limit s player events =
      events.foldl (meet p limit) ((start s player).checkLimit limit) := rfl

/-- Further events go on from where the run is. -/
theorem ofEvents_append (before after : List RunEvent) :
    ofEvents p limit s player (before ++ after) =
      after.foldl (meet p limit) (ofEvents p limit s player before) := by
  rw [ofEvents_eq_foldl, List.foldl_append, ← ofEvents_eq_foldl]

theorem ofEvents_concat (events : List RunEvent) (e : RunEvent) :
    ofEvents p limit s player (events ++ [e]) = (ofEvents p limit s player events).meet p limit e :=
  ofEvents_append events [e]

/-- **Every run is in step.** -/
theorem inStep_ofEvents (events : List RunEvent) :
    InStep p s player (ofEvents p limit s player events) := by
  induction events using List.reverseRecOn with
  | nil => exact inStep_start.checkLimit limit
  | append_singleton events e ih =>
    rw [ofEvents_concat]
    exact ih.meet e

/-- **Every run is within its limit.** -/
theorem withinLimit_ofEvents (events : List RunEvent) :
    WithinLimit limit (ofEvents p limit s player events) := by
  induction events using List.reverseRecOn with
  | nil => exact withinLimit_start
  | append_singleton events e ih =>
    rw [ofEvents_concat]
    exact ih.meet e

/-- Nothing happens after the end. -/
theorem goOn_of_isOver {r : Run σ} (h : r.IsOver) (events : List RunEvent) :
    events.foldl (meet p limit) r = r := by
  induction events with
  | nil => rfl
  | cons e events ih => rw [List.foldl_cons, meet_of_isOver h, ih]

/-- A held run stays where it is until it is resumed. -/
theorem IsHeld.goOn {r : Run σ} (h : r.IsHeld) {events : List RunEvent}
    (he : .control .resume ∉ events) :
    (events.foldl (Run.meet p limit) r).IsHeld ∧
      (events.foldl (Run.meet p limit) r).reports = r.reports := by
  induction events generalizing r with
  | nil => exact ⟨h, rfl⟩
  | cons e events ih =>
    rw [List.mem_cons, not_or] at he
    obtain ⟨hheld, hreports⟩ := h.meet p limit (Ne.symm he.1)
    obtain ⟨hheld', hreports'⟩ := ih hheld he.2
    exact ⟨hheld', hreports'.trans hreports⟩

/-- From a pause on nothing is reported until the run is resumed. -/
theorem ofEvents_reports_of_pause (before : List RunEvent) {waiting : List RunEvent}
    (h : .control .resume ∉ waiting) :
    (ofEvents p limit s player (before ++ .control .pause :: waiting)).reports =
      (ofEvents p limit s player before).reports := by
  rw [ofEvents_append, List.foldl_cons]
  obtain ⟨hheld, hreports⟩ := isHeld_meet_pause p limit (ofEvents p limit s player before)
  rw [(hheld.goOn h).2, hreports]

/-- From a stop on nothing is reported. -/
theorem ofEvents_reports_of_stop (before after : List RunEvent) :
    (ofEvents p limit s player (before ++ .control .stop :: after)).reports =
      (ofEvents p limit s player before).reports := by
  rw [ofEvents_append, List.foldl_cons]
  obtain ⟨hover, hreports⟩ := isOver_meet_stop p limit (ofEvents p limit s player before)
  rw [goOn_of_isOver hover, hreports]

/-! ### Reasons for an end -/

/-- What comes before an end: for each reason, the event or the count that it names. -/
def EndCause (p : Player σ) (limit : Option Nat) (s : Scheduler) (player : σ)
    (events : List RunEvent) : RunEnd → Prop
  | .limitReached => limit = some (ofEvents p limit s player events).ticks
  | .stopped => ∃ before after, events = before ++ .control .stop :: after ∧
      ¬(ofEvents p limit s player before).IsOver
  | .abandoned => ∃ before waiting after,
      events = before ++ .control .pause :: waiting ++ .hangUp :: after ∧
        .control .resume ∉ waiting ∧
        ¬(ofEvents p limit s player (before ++ .control .pause :: waiting)).IsOver

/-- A paused run met a pause and was not resumed since. -/
theorem exists_pause_of_paused {events : List RunEvent}
    (h : (ofEvents p limit s player events).state = .paused) :
    ∃ before waiting, events = before ++ .control .pause :: waiting ∧
      .control .resume ∉ waiting := by
  induction events using List.reverseRecOn with
  | nil =>
    rcases checkLimit_cases limit (start s player) with hsame | ⟨hended, -⟩
    · rw [ofEvents_eq_foldl, List.foldl_nil, hsame] at h
      cases h
    · cases h.symm.trans hended
  | append_singleton events e ih =>
    rw [ofEvents_concat, meet] at h
    set r := ofEvents p limit s player events
    have hpaused : (r.handle p e).state = .paused := by
      rcases checkLimit_cases limit (r.handle p e) with hsame | ⟨hended, -⟩
      · rwa [hsame] at h
      · cases h.symm.trans hended
    by_cases he : e = .control .pause
    · exact ⟨events, [], by rw [he], List.not_mem_nil⟩
    · -- any other event that leaves the run paused met a paused run
      have hbefore : r.state = .paused ∧ e ≠ .control .resume := by
        rcases hs : r.state with - | - | reason <;> rcases e with (_ | _ | _) | _ | _ <;>
          simp_all [handle, finish, say, tick]
      obtain ⟨before, waiting, hevents, hresume⟩ := ih hbefore.1
      refine ⟨before, waiting ++ [e], by rw [hevents]; simp, ?_⟩
      rw [List.mem_append, List.mem_singleton, not_or]
      exact ⟨hresume, Ne.symm hbefore.2⟩

/-- An event that ends a run is a stop, or the loss of the controller while the run is paused. -/
theorem cause_of_handle {r : Run σ} (hr : ¬r.IsOver) {e : RunEvent} {reason : RunEnd}
    (h : (r.handle p e).state = .ended reason) :
    reason = .stopped ∧ e = .control .stop ∨
      reason = .abandoned ∧ e = .hangUp ∧ r.state = .paused := by
  rcases hs : r.state with - | - | old
  case ended => exact absurd ⟨old, hs⟩ hr
  all_goals
    rcases e with (_ | _ | _) | _ | _ <;> simp_all [handle, finish, say, tick]

/-- The check of the limit ends a run only at the limit. -/
theorem limit_eq_of_checkLimit {r : Run σ} (h : WithinLimit limit (r.checkLimit limit)) {most : Nat}
    (hmost : most ∈ limit) (hle : most ≤ r.ticks) :
    limit = some (r.checkLimit limit).ticks := by
  have hticks := (h most hmost).1
  rw [checkLimit_ticks] at hticks ⊢
  rw [hmost, Nat.le_antisymm hle hticks]

/-- Every end has the cause that it names. -/
theorem endCause_of_ended {events : List RunEvent} {reason : RunEnd}
    (h : (ofEvents p limit s player events).state = .ended reason) :
    EndCause p limit s player events reason := by
  -- by the last event: the run was over before it, or it is what ended the run
  induction events using List.reverseRecOn with
  | nil =>
    rcases checkLimit_cases limit (start s player) with hsame | ⟨hended, most, hmost, hle⟩
    · rw [ofEvents_eq_foldl, List.foldl_nil, hsame] at h
      cases h
    · obtain rfl := RunState.ended.inj (h.symm.trans hended)
      exact limit_eq_of_checkLimit withinLimit_start hmost hle
  | append_singleton events e ih =>
    by_cases hover : (ofEvents p limit s player events).IsOver
    · -- the run was over before the last event
      have hsame : ofEvents p limit s player (events ++ [e]) = ofEvents p limit s player events := by
        rw [ofEvents_concat, meet_of_isOver hover]
      rw [hsame] at h
      cases reason with
      | limitReached =>
        show limit = some (ofEvents p limit s player (events ++ [e])).ticks
        rw [hsame]
        exact ih h
      | stopped =>
        obtain ⟨before, after, hevents, hgoing⟩ := ih h
        exact ⟨before, after ++ [e], by rw [hevents]; simp, hgoing⟩
      | abandoned =>
        obtain ⟨before, waiting, after, hevents, hresume, hgoing⟩ := ih h
        exact ⟨before, waiting, after ++ [e], by rw [hevents]; simp, hresume, hgoing⟩
    · rw [ofEvents_concat, meet] at h
      rcases checkLimit_cases limit ((ofEvents p limit s player events).handle p e) with
        hsame | ⟨hended, most, hmost, hle⟩
      · -- the limit is not reached, so the event itself ended the run
        rw [hsame] at h
        rcases cause_of_handle hover h with ⟨rfl, rfl⟩ | ⟨rfl, rfl, hpaused⟩
        · exact ⟨events, [], rfl, hover⟩
        · obtain ⟨before, waiting, hevents, hresume⟩ := exists_pause_of_paused hpaused
          exact ⟨before, waiting, [], by rw [hevents], hresume, hevents ▸ hover⟩
      · obtain rfl := RunState.ended.inj (h.symm.trans hended)
        have hwithin : WithinLimit limit (ofEvents p limit s player (events ++ [e])) :=
          withinLimit_ofEvents _
        show limit = some (ofEvents p limit s player (events ++ [e])).ticks
        rw [ofEvents_concat, meet] at hwithin ⊢
        exact limit_eq_of_checkLimit hwithin hmost hle

/-! ### The run as a whole -/

/-- What holds of the run over a list of events, whatever their order. -/
structure Orderly (p : Player σ) (limit : Option Nat) (s : Scheduler) (player : σ)
    (events : List RunEvent) : Prop where
  /-- There is one report for each tick, in order. -/
  reports_eq : (ofEvents p limit s player events).reports =
    (List.range (ofEvents p limit s player events).ticks).map fun k ↦ (s.ahead k).report
  length_reports : (ofEvents p limit s player events).reports.length =
    (ofEvents p limit s player events).ticks
  /-- The player was asked for what fires on these ticks and nothing else. -/
  player_eq : (ofEvents p limit s player events).player =
    s.playedBy p player (ofEvents p limit s player events).ticks
  /-- The reported steps go round the loop, from the first position on. -/
  steps_eq : (ofEvents p limit s player events).reports.map (·.step) =
    (List.range (ofEvents p limit s player events).ticks).map fun k ↦
      (s.counter.position + k) % max s.track.stepCount.toNat 1
  ticks_le : ∀ most ∈ limit, (ofEvents p limit s player events).ticks ≤ most
  /-- A tick follows from the deadline, or from the loss of the controller, as long as the run is
  playing and the limit is not reached. -/
  ticks_of_due : (ofEvents p limit s player events).state = .playing →
    ∀ e, e = .deadline ∨ e = .hangUp →
      (ofEvents p limit s player (events ++ [e])).ticks =
        (ofEvents p limit s player events).ticks + 1
  /-- Between a pause and the next time the run is resumed there is no tick. -/
  reports_of_pause : ∀ before waiting, before ++ .control .pause :: waiting <+: events →
    .control .resume ∉ waiting →
      (ofEvents p limit s player (before ++ .control .pause :: waiting)).reports =
        (ofEvents p limit s player before).reports
  /-- After a stop there is no tick. -/
  reports_of_stop : ∀ before after, events = before ++ .control .stop :: after →
    (ofEvents p limit s player events).reports = (ofEvents p limit s player before).reports
  endCause : ∀ reason, (ofEvents p limit s player events).state = .ended reason →
    EndCause p limit s player events reason

/-- A run that is playing ticks when it is due. -/
theorem ticks_of_due {events : List RunEvent}
    (h : (ofEvents p limit s player events).state = .playing) {e : RunEvent}
    (he : e = .deadline ∨ e = .hangUp) :
    (ofEvents p limit s player (events ++ [e])).ticks =
      (ofEvents p limit s player events).ticks + 1 := by
  rw [ofEvents_concat, meet, checkLimit_ticks]
  rcases he with rfl | rfl <;> simp only [handle, h] <;> rfl

/-- The reported steps go round the loop, from the first position on. -/
theorem steps_ofEvents (hs : s.FollowsTrack) (p : Player σ) (limit : Option Nat) (player : σ)
    (events : List RunEvent) :
    (ofEvents p limit s player events).reports.map (·.step) =
      (List.range (ofEvents p limit s player events).ticks).map fun k ↦
        (s.counter.position + k) % max s.track.stepCount.toNat 1 := by
  rw [(inStep_ofEvents events).reports, List.map_map]
  refine List.map_congr_left fun k _ ↦ ?_
  show (s.counter.ahead k).position = _
  rw [StepCounter.ahead_position, hs]

/-- A run of a track takes its steps in turn, beginning with the first. -/
theorem steps_of_ofTrack {t : Track} (h : Scheduler.ofTrack t = .ok s) (p : Player σ)
    (limit : Option Nat) (player : σ) (events : List RunEvent) :
    (ofEvents p limit s player events).reports.map (·.step) =
      (List.range (ofEvents p limit s player events).ticks).map (· % max t.stepCount.toNat 1) := by
  obtain ⟨htrack, hcounter⟩ := Scheduler.ofTrack_eq_ok h
  have hfirst : s.counter.position = 0 := congrArg StepCounter.position hcounter
  rw [steps_ofEvents (Scheduler.followsTrack_of_ofTrack h), htrack, hfirst]
  simp only [Nat.zero_add]

/-- **Order.** Whatever the order of the events, the player and the limit, the run is orderly. -/
theorem ofEvents_orderly (hs : s.FollowsTrack) (p : Player σ) (limit : Option Nat) (player : σ)
    (events : List RunEvent) : Orderly p limit s player events where
  reports_eq := (inStep_ofEvents events).reports
  length_reports := by
    rw [(inStep_ofEvents events).reports, List.length_map, List.length_range]
  player_eq := (inStep_ofEvents events).player
  steps_eq := steps_ofEvents hs p limit player events
  ticks_le := fun most hmost ↦ (withinLimit_ofEvents events most hmost).1
  ticks_of_due := fun h _ he ↦ ticks_of_due h he
  reports_of_pause := fun before _ _ hresume ↦ ofEvents_reports_of_pause before hresume
  reports_of_stop := by
    rintro before after rfl
    exact ofEvents_reports_of_stop before after
  endCause := fun _ h ↦ endCause_of_ended h

/-- A loop of three steps whose only slot always fires, with a player that never succeeds: paused
once, resumed and stopped. -/
theorem ofEvents_orderly_failing :
    Orderly ⟨fun calls _ ↦ ⟨calls + 1, [], some (.failed "no device")⟩⟩ (some 9)
      ⟨⟨"loop", "", 120, 3, 1, [⟨0, .folder, "hit", .always, .standard⟩]⟩, ⟨3, 2, by decide⟩, ⟨500⟩⟩ 0
      [.deadline, .control .pause, .deadline, .control .resume, .deadline, .control .stop] := by
  refine ofEvents_orderly ?_ _ _ _ _
  show 3 = max (3 : UInt32).toNat 1
  rfl

end Run

end StepSequencer
