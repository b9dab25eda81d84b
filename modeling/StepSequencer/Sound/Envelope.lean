import StepSequencer.Track.Preset

/-!
# Envelopes

The loudness of a playing sample over time. It rises from nothing to the attack level, goes on to
the decay level and the sustain level, and falls to nothing again, each in a straight line. Times
are in frames since the trigger. An envelope without a sustain length holds the sustain level until
the sample runs out.
-/

namespace StepSequencer

/-- The shape of the loudness of one triggered sample. -/
structure Envelope where
  attack : Nat
  decay : Nat
  /-- How long the sustain lasts, if it ends by itself. -/
  sustain : Option Nat
  release : Nat
  attackLevel : Float32
  decayLevel : Float32
  sustainLevel : Float32

/-- The part of an envelope a frame falls in. -/
inductive Phase where
  | attack
  | decay
  | sustain
  | release
  | done
  deriving DecidableEq

/-- The written name of the phase. -/
def Phase.name : Phase → String
  | .attack => "attack"
  | .decay => "decay"
  | .sustain => "sustain"
  | .release => "release"
  | .done => "done"

namespace Envelope

/-- The frames in a number of beats, rounded to the closest. Less than nothing counts as nothing,
and there are at most `2 ^ 64 - 1` frames. -/
def frames (secondsPerBeat : Float) (rate : Nat) (beats : Float32) : Nat :=
  let beats : Float32 := if 0 < beats then beats else 0
  (beats.toFloat * secondsPerBeat * Float.ofNat rate).round.toUInt64.toNat

/-- The envelope that a preset describes. A negative sustain holds. -/
def ofPreset (p : Preset) (secondsPerBeat : Float) (rate : Nat) : Envelope :=
  let frames := frames secondsPerBeat rate
  { attack := frames p.attack
    decay := frames p.decay
    sustain := if 0 ≤ p.sustain then some (frames p.sustain) else none
    release := frames p.release
    attackLevel := p.attackLevel
    decayLevel := p.decayLevel
    sustainLevel := p.sustainLevel }

/-- The phase that frame `n` falls in, and how far into it. -/
def phaseAt (e : Envelope) (n : Nat) : Phase × Nat :=
  if n < e.attack then (.attack, n)
  else
    let n := n - e.attack
    if n < e.decay then (.decay, n)
    else
      let n := n - e.decay
      match e.sustain with
      | none => (.sustain, n)
      | some sustain =>
        if n < sustain then (.sustain, n)
        else
          let n := n - sustain
          if n < e.release then (.release, n) else (.done, 0)

/-- The value on a straight line, `position` out of `length` frames along. Frames are counted in 64
bits. -/
def ramp (start stop : Float32) (position length : Nat) : Float32 :=
  if length = 0 then stop
  else start + (stop - start) * (position.toUInt64.toFloat32 / length.toUInt64.toFloat32)

/-- The gain at frame `n`, while the envelope lasts. -/
def levelAt (e : Envelope) (n : Nat) : Option Float32 :=
  match e.phaseAt n with
  | (.attack, position) => some (ramp 0 e.attackLevel position e.attack)
  | (.decay, position) => some (ramp e.attackLevel e.decayLevel position e.decay)
  | (.sustain, position) =>
    some (match e.sustain with
      | some length => ramp e.decayLevel e.sustainLevel position length
      | none => e.sustainLevel)
  | (.release, position) => some (ramp e.sustainLevel 0 position e.release)
  | (.done, _) => none

end Envelope

end StepSequencer
