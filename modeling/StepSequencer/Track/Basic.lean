import StepSequencer.Rule.Split
import StepSequencer.Time.Span
import StepSequencer.Track.Preset

/-!
# Tracks

A track is a loop of steps with a fixed tempo, and the slots that may fire on each step. A slot
plays a sample from the track's folder or one of the host's bundled samples.
-/

namespace StepSequencer

/-- The number of a slot, and of its sample within the folder. -/
abbrev SlotId := UInt16

/-- Where a slot's sample comes from. -/
inductive SampleSource where
  /-- The slot's own sample in the track's folder. -/
  | folder
  /-- One of the host's bundled samples. -/
  | bundled (name : String)
  deriving DecidableEq

namespace SampleSource

/-- The name of a bundled sample. -/
def bundledName? : SampleSource → Option String
  | .folder => none
  | .bundled name => some name

/-- Whether the sample comes from the track's folder. -/
def isFolder : SampleSource → Bool
  | .folder => true
  | .bundled _ => false

end SampleSource

/-- A slot: what it plays, how, and on which steps. -/
structure Slot where
  id : SlotId
  source : SampleSource
  /-- The name of its rule in a script. -/
  label : String
  rule : Rule
  preset : Preset
  deriving BEq

namespace Slot

/-- The usual label of a folder slot. -/
def folderLabel (id : SlotId) : String := "sleep_sample_" ++ toString id.toNat

/-- The usual label of a bundled slot. -/
def bundledLabel (name : String) : String := "sleep_" ++ name

/-- The usual label of a slot. -/
def usualLabel (id : SlotId) : SampleSource → String
  | .folder => folderLabel id
  | .bundled name => bundledLabel name

end Slot

/-- A loop of steps and the slots that fire on them. -/
structure Track where
  name : String
  /-- The folder of the track's own samples. -/
  samplesDir : String
  bpm : Float32
  stepCount : UInt32
  beatsPerStep : Float32
  slots : List Slot
  deriving BEq

/-- Why a track cannot be played. -/
inductive TrackError where
  | bpmNotPositive (bpm : Float32)
  | noSteps
  | stepNotPositive (beats : Float32)
  | unusableTick (beats bpm : Float32) (cause : SpanError)
  | zeroTick (beats bpm : Float32)
  | badRule (label : String) (slot : SlotId) (cause : RuleError)
  | badPreset (slot : SlotId) (cause : PresetError)

/-- The wording of the error. -/
def TrackError.message : TrackError → String
  | .bpmNotPositive bpm => "bpm must be positive, got " ++ NumberLayout.plain.single bpm
  | .noSteps => "downbeat range is empty"
  | .stepNotPositive beats =>
    "downbeat time must be positive, got " ++ NumberLayout.plain.single beats
  | .unusableTick beats bpm cause =>
    tempo beats bpm ++ " is not a usable tick: " ++ cause.message
  | .zeroTick beats bpm => tempo beats bpm ++ " rounds to a zero-length tick"
  | .badRule label slot cause =>
    "predicate " ++ label ++ " (slot " ++ toString slot.toNat ++ "): " ++ cause.message
  | .badPreset slot cause => "preset for slot " ++ toString slot.toNat ++ ": " ++ cause.message
where
  tempo (beats bpm : Float32) : String :=
    NumberLayout.plain.single beats ++ " beats at " ++ NumberLayout.plain.single bpm ++ " bpm"

namespace Track

variable (t : Track)

/-- The length of a beat in seconds. -/
def secondsPerBeat : Float := 60 / (Binary.ofSingle t.bpm).toDouble

/-- The time from one step to the next. -/
def tickInterval : Except TrackError Span :=
  match Span.ofSeconds ((Binary.ofSingle t.beatsPerStep).toDouble * t.secondsPerBeat) with
  | .error cause => .error (.unusableTick t.beatsPerStep t.bpm cause)
  | .ok span => if span.nanoseconds = 0 then .error (.zeroTick t.beatsPerStep t.bpm) else .ok span

/-- Refuses a slot whose rule or preset cannot be used. -/
def validateSlot (s : Slot) : Except TrackError Unit := do
  s.rule.validate.mapError (.badRule s.label s.id)
  s.preset.validate.mapError (.badPreset s.id)

/-- Refuses a track that cannot be played. -/
def validate : Except TrackError Unit := do
  unless t.bpm.isFinite && 0 < t.bpm do
    throw (.bpmNotPositive t.bpm)
  if t.stepCount = 0 then
    throw .noSteps
  unless t.beatsPerStep.isFinite && 0 < t.beatsPerStep do
    throw (.stepNotPositive t.beatsPerStep)
  let _ ← t.tickInterval
  t.slots.forM validateSlot

end Track

end StepSequencer
