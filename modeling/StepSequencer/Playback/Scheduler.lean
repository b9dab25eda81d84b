import StepSequencer.Playback.Player
import StepSequencer.Playback.StepCounter
import StepSequencer.Track.Pattern

/-!
# The scheduler

The scheduler takes the steps of a track in order. On each tick it asks the player to play the slots
that fire and reports them; a player that fails is logged and does not stop the tick.
-/

namespace StepSequencer

/-- What happened on one tick. -/
structure TickReport where
  step : Nat
  fired : List SlotId
  deriving DecidableEq

/-- What the scheduler says. -/
inductive SchedulerNotice where
  | playing (steps : Nat) (interval : Span)
  | paused (step : Nat)
  | resumed (step : Nat)
  | stopped (ticks : Nat)
  | notPlayed (step : Nat) (slot : SlotId) (cause : PlayError)
  | fired (report : TickReport)
  | fellBehind (delay : Span)

namespace SchedulerNotice

/-- How much the notice matters. -/
def level : SchedulerNotice → LogLevel
  | .notPlayed .. | .fellBehind _ => .warn
  | .fired _ => .debug
  | _ => .info

/-- The wording of the notice. -/
def text : SchedulerNotice → String
  | .playing steps interval => "playing " ++ toString steps ++ " steps every " ++ interval.text
  | .paused step => "paused at step " ++ toString step
  | .resumed step => "resumed at step " ++ toString step
  | .stopped ticks => "stopped after " ++ toString ticks ++ " ticks"
  | .notPlayed step slot cause =>
    "step " ++ toString step ++ ": slot " ++ toString slot.toNat ++ " did not play: "
      ++ cause.message
  | .fired report =>
    let slots := report.fired.map fun slot ↦ "SlotId(" ++ toString slot.toNat ++ ")"
    "step " ++ toString report.step ++ ": fired [" ++ ", ".intercalate slots ++ "]"
  | .fellBehind delay => "fell behind by " ++ delay.text ++ ", skipping ahead"

/-- The log entry of the notice. -/
def entry (n : SchedulerNotice) : LogEntry := ⟨n.level, .scheduler, n.text⟩

end SchedulerNotice

/-- A track on its way through its steps. -/
structure Scheduler where
  track : Track
  counter : StepCounter
  interval : Span

/-- What a part of a run led to: the player's state and what was logged. -/
structure PlayLog (σ : Type) where
  player : σ
  log : List LogEntry

namespace Scheduler

/-- The scheduler at the first step of a track. It needs a tick of some length. -/
def ofTrack (t : Track) : Except TrackError Scheduler := do
  let interval ← t.tickInterval
  return ⟨t, .start t.stepCount.toNat, interval⟩

/-- The trigger of a slot that fires on a step. -/
def trigger (t : Track) (step : Nat) (s : Slot) : Trigger where
  step := step
  slot := s.id
  source := s.source
  samplesDir := t.samplesDir
  preset := s.preset

/-- The triggers of a step, in the track's order. -/
def triggers (t : Track) (step : Nat) : List Trigger :=
  (t.triggered (Int64.ofNat step)).map (trigger t step)

/-- Plays one trigger and logs if it did not play. -/
def playOne {σ : Type} (p : Player σ) (acc : PlayLog σ) (t : Trigger) : PlayLog σ :=
  let result := p.play acc.player t
  let failure := result.error.map fun cause ↦
    (SchedulerNotice.notPlayed t.step t.slot cause).entry
  ⟨result.state, acc.log ++ result.log ++ failure.toList⟩

/-- The next step's triggers. -/
def pending (s : Scheduler) : List Trigger := triggers s.track s.counter.position

/-- The report of the next tick. -/
def report (s : Scheduler) : TickReport := ⟨s.counter.position, s.pending.map (·.slot)⟩

/-- The scheduler after a tick. -/
def advance (s : Scheduler) : Scheduler := { s with counter := s.counter.advance }

/-- Plays what fires on the next step, in order. -/
def tick {σ : Type} (p : Player σ) (s : Scheduler) (player : σ) : PlayLog σ :=
  let played := s.pending.foldl (playOne p) ⟨player, []⟩
  { played with log := played.log ++ [(SchedulerNotice.fired s.report).entry] }

end Scheduler

end StepSequencer
