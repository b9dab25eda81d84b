import StepSequencer.Playback.Scheduler

/-!
# What the screen knows of a run

The screen follows a run by its tick reports, and knows whether the run is paused or over.
-/

namespace StepSequencer.Screen

/-- The state of a run as the screen shows it. -/
structure State where
  paused : Bool
  finished : Bool
  /-- The step of the last tick. -/
  step : Option Nat
  ticks : Nat
  lastFired : List SlotId

namespace State

/-- The state before the first tick. -/
def fresh : State := ⟨false, false, none, 0, []⟩

/-- The state after one more tick. -/
def apply (s : State) (report : TickReport) : State :=
  { s with step := some report.step, ticks := s.ticks + 1, lastFired := report.fired }

/-- The word for how the run goes. A run that is over counts as stopped even if it was paused. -/
def status (s : State) : String :=
  if s.finished then "stopped" else if s.paused then "paused" else "playing"

end State

end StepSequencer.Screen
