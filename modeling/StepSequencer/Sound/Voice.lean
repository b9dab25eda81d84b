import StepSequencer.Sound.Envelope
import StepSequencer.Sound.Frame

/-!
# Voices

A voice is one playing sample. It ends when the sample or its envelope runs out.
-/

namespace StepSequencer

/-- The number of a loaded sample. -/
abbrev SampleId := Nat

/-- The frames of a sample. -/
abbrev SampleData := Array Frame

/-- One playing sample. -/
structure Voice where
  sample : SampleId
  /-- The next frame of the sample. -/
  position : Nat
  /-- The frames since the trigger. -/
  age : Nat
  envelope : Envelope

namespace Voice

/-- The voice at its trigger. -/
def start (sample : SampleId) (position : Nat) (envelope : Envelope) : Voice :=
  ⟨sample, position, 0, envelope⟩

/-- The voice one frame later. -/
def advance (v : Voice) : Voice := { v with position := v.position + 1, age := v.age + 1 }

/-- What the voice plays next, with its gain, unless it has come to its end. -/
def current? (data : SampleData) (v : Voice) : Option (Float32 × Frame) := do
  let frame ← data[v.position]?
  let gain ← v.envelope.levelAt v.age
  return (gain, frame)

/-- A block with the voice mixed in, and the voice after it if it goes on. -/
def mix (data : SampleData) (v : Voice) : List Frame → Option Voice × List Frame
  | [] => (some v, [])
  | f :: block =>
    match v.current? data with
    | none => (none, f :: block)
    | some (gain, frame) =>
      let (after, mixed) := v.advance.mix data block
      (after, f.mixIn gain frame :: mixed)

end Voice

end StepSequencer
