import StepSequencer.Log
import StepSequencer.Playback.Channel
import StepSequencer.Track.Basic

/-!
# Players

A player is asked to play a slot on a step. It has a state of its own, may log, and may fail.
-/

namespace StepSequencer

/-- One slot that fires on one step. -/
structure Trigger where
  step : Nat
  slot : SlotId
  source : SampleSource
  samplesDir : String
  preset : Preset

/-- Why a slot did not play. -/
inductive PlayError where
  | notLoaded (slot : SlotId)
  | notQueued (cause : SendError)
  /-- The player's device failed. -/
  | failed (reason : String)

/-- The wording of the error. -/
def PlayError.message : PlayError → String
  | .notLoaded slot => "slot " ++ toString slot.toNat ++ " has no sample loaded"
  | .notQueued cause => "could not queue trigger: " ++ cause.message
  | .failed reason => reason

/-- What playing a trigger led to. -/
structure PlayResult (σ : Type) where
  state : σ
  log : List LogEntry
  error : Option PlayError

/-- How triggers are played, with the player's state as a value. -/
structure Player (σ : Type) where
  play : σ → Trigger → PlayResult σ

/-! ### The dry run -/

/-- The line that says what would play. -/
def Trigger.announcement (t : Trigger) : String :=
  let float := NumberLayout.plain.single
  let step := String.ofList ((toString t.step).toList.leftpad 3 ' ')
  let what := match t.source with
    | .folder => "sample " ++ toString t.slot.toNat ++ " from " ++ t.samplesDir
    | .bundled name => "bundled :" ++ name ++ " (slot " ++ toString t.slot.toNat ++ ")"
  let p := t.preset
  "step " ++ step ++ "  " ++ what ++ "  start=" ++ float p.start ++
    " attack=" ++ float p.attack ++ "@" ++ float p.attackLevel ++
    " decay=" ++ float p.decay ++ "@" ++ float p.decayLevel ++
    " sustain=" ++ float p.sustain ++ "@" ++ float p.sustainLevel ++
    " release=" ++ float p.release

/-- The player that only says what would play. Its state counts what it was asked to play. -/
def Player.dryRun : Player Nat where
  play count trigger := ⟨count + 1, [⟨.info, .play, trigger.announcement⟩], none⟩

end StepSequencer
