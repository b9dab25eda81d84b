import StepSequencer.Playback.Scheduler

/-!
# Runs

A run ticks until it is stopped. It waits for one event at a time: a message from its controller,
the deadline of the next tick, or the loss of the controller. A paused run ticks again only after it
was resumed, and ends when there is nobody left to resume it.

When a tick is due is decided outside a run. The host adds the interval to the time of the last tick,
skips ahead if it fell behind, and cannot go on where its clock has no room for the sum. A run only
meets the deadlines that pass, so its ticks are those of a host whose clock has.
-/

namespace StepSequencer

/-- A message from the controller of a run. -/
inductive Control where
  | pause
  | resume
  | stop
  deriving DecidableEq

/-- What a waiting run meets. -/
inductive RunEvent where
  | control (message : Control)
  /-- The time of the next tick has come. -/
  | deadline
  /-- There is no controller any more, and no message of it is left. -/
  | hangUp
  deriving DecidableEq

/-- Why a run ended. -/
inductive RunEnd where
  | limitReached
  | stopped
  | abandoned
  deriving DecidableEq

/-- Whether a run is going on. -/
inductive RunState where
  | playing
  | paused
  | ended (reason : RunEnd)
  deriving DecidableEq

/-- A run so far, with the player's state. -/
structure Run (σ : Type) where
  scheduler : Scheduler
  player : σ
  state : RunState
  ticks : Nat
  reports : List TickReport
  log : List LogEntry

namespace Run

variable {σ : Type}

/-- Adds a notice to the log. -/
def say (r : Run σ) (n : SchedulerNotice) : Run σ := { r with log := r.log ++ [n.entry] }

/-- The run after its end. -/
def finish (r : Run σ) (reason : RunEnd) : Run σ :=
  { r with state := .ended reason }.say (.stopped r.ticks)

/-- The run after one tick more. -/
def tick (p : Player σ) (r : Run σ) : Run σ :=
  let played := r.scheduler.tick p r.player
  { r with
    scheduler := r.scheduler.advance
    player := played.player
    ticks := r.ticks + 1
    reports := r.reports ++ [r.scheduler.report]
    log := r.log ++ played.log }

/-- The run after an event. Losing the controller does not stop a run that is not paused. -/
def handle (p : Player σ) (r : Run σ) (e : RunEvent) : Run σ :=
  match r.state, e with
  | .ended _, _ => r
  | .playing, .control .pause =>
    { r with state := .paused }.say (.paused r.scheduler.counter.position)
  | .playing, .control .resume => r
  | .playing, .control .stop => r.finish .stopped
  | .playing, .deadline => r.tick p
  | .playing, .hangUp => r.tick p
  | .paused, .control .pause => r
  | .paused, .control .resume =>
    { r with state := .playing }.say (.resumed r.scheduler.counter.position)
  | .paused, .control .stop => r.finish .stopped
  | .paused, .deadline => r
  | .paused, .hangUp => r.finish .abandoned

/-- The run after the check that is made before each wait: it ends once it has
ticked often enough. -/
def checkLimit (limit : Option Nat) (r : Run σ) : Run σ :=
  match r.state, limit with
  | .ended _, _ => r
  | _, some most => if most ≤ r.ticks then r.finish .limitReached else r
  | _, none => r

/-- The run at its start. -/
def start (s : Scheduler) (player : σ) : Run σ :=
  Run.say ⟨s, player, .playing, 0, [], []⟩ (.playing s.counter.length s.interval)

/-- The run that meets these events, one after the other. -/
def ofEvents (p : Player σ) (limit : Option Nat) (s : Scheduler) (player : σ)
    (events : List RunEvent) : Run σ :=
  events.foldl (fun r e ↦ (r.handle p e).checkLimit limit) ((start s player).checkLimit limit)

end Run

end StepSequencer
