import StepSequencer.Sound.Voice

/-!
# The sound engine

The engine holds the loaded samples and the voices that play them. Voices stand in the order of
their triggers, and are mixed in that order. There are at most `maxVoices`; one more takes the place
of the oldest.
-/

namespace StepSequencer

/-- What the engine is told. -/
inductive SoundCommand where
  | register (sample : SampleId) (data : SampleData)
  /-- Plays a sample from a fraction of its length on. -/
  | trigger (sample : SampleId) (start : Float32) (envelope : Envelope)

/-- The loaded samples, the last registered first, and the voices, the oldest first. -/
structure Engine where
  samples : List (SampleId × SampleData)
  voices : List Voice

namespace Engine

/-- The number of voices there can be. -/
def maxVoices : Nat := 32

/-- The engine without samples. -/
def silent : Engine := ⟨[], []⟩

/-- The frames of a registered sample. -/
def sample? (e : Engine) (id : SampleId) : Option SampleData := e.samples.lookup id

/-- The value within the range from zero to one; a value that is no number stays. -/
def clampFraction (x : Float32) : Float32 := if x < 0 then 0 else if 1 < x then 1 else x

/-- The frame at a fraction of a sample. -/
def startFrame (start : Float32) (data : SampleData) : Nat :=
  (clampFraction start * Float32.ofNat data.size).toUInt64.toNat

/-- The voices after one more has started. -/
def addVoice (voices : List Voice) (v : Voice) : List Voice :=
  (if voices.length = maxVoices then voices.drop 1 else voices) ++ [v]

/-- The engine after a command. A sample that is not registered cannot be triggered. -/
def handle (e : Engine) : SoundCommand → Engine
  | .register id data => { e with samples := (id, data) :: e.samples }
  | .trigger id start envelope =>
    match e.sample? id with
    | none => e
    | some data =>
      let voice := .start id (startFrame start data) envelope
      { e with voices := addVoice e.voices voice }

/-- Triggers leave the samples alone. -/
theorem handle_trigger_samples (e : Engine) (id : SampleId) (start : Float32) (envelope : Envelope) :
    (e.handle (.trigger id start envelope)).samples = e.samples := by
  rw [handle]
  split <;> rfl

/-- The voices that go on after a block, and the block with all of them mixed in. -/
def mixVoices (e : Engine) : List Voice → List Frame → List Voice × List Frame
  | [], block => ([], block)
  | v :: voices, block =>
    match e.sample? v.sample with
    | none => e.mixVoices voices block
    | some data =>
      let (after, mixed) := v.mix data block
      let (others, mixed) := e.mixVoices voices mixed
      (after.toList ++ others, mixed)

/-- Fills a block with sound, whatever it held before. -/
def render (e : Engine) (block : List Frame) : Engine × List Frame :=
  let (voices, mixed) := e.mixVoices e.voices (block.map fun _ ↦ Frame.silent)
  ({ e with voices := voices }, mixed)

end Engine

end StepSequencer
