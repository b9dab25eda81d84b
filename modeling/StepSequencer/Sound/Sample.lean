import StepSequencer.Sound.Voice
import StepSequencer.Sound.Wave

/-!
# Samples

A sample is the sound of a wave file, as stereo frames at the rate of the output.
-/

namespace StepSequencer.SampleData

/-- The frames of some values. The single channel of a mono sound goes to both sides, and further
channels than two are left out. -/
def ofValues (channels : Nat) (values : Array Float32) : SampleData :=
  let right := if 1 < channels then 1 else 0
  (Array.range (values.size / channels)).map fun k ↦
    ⟨values[k * channels]?.getD 0, values[k * channels + right]?.getD 0⟩

/-- The frame at a fractional position: between two frames the straight line, from the last
on the last. -/
def frameAt (data : SampleData) (position : Float) : Frame :=
  let index := position.floor.toUInt64.toNat
  let part := (position - Float.ofNat index).toFloat32
  match data[index]?, data[index + 1]? with
  | some a, some b =>
    ⟨a.left * (1 - part) + b.left * part, a.right * (1 - part) + b.right * part⟩
  | _, _ => data.back?.getD .silent

/-- The sound at another rate. -/
def resampled (data : SampleData) (sourceRate targetRate : Nat) : SampleData :=
  if sourceRate = targetRate || sourceRate = 0 then data
  else
    let ratio := Float.ofNat targetRate / Float.ofNat sourceRate
    let length := (Float.ofNat data.size * ratio).ceil.toUInt64.toNat
    (Array.range length).map fun k ↦ data.frameAt (Float.ofNat k / ratio)

/-- The sound of a wave file at a rate. -/
def ofWave (w : Wave) (rate : Nat) : Except WaveError SampleData := do
  let values ← w.values
  return (ofValues w.format.channels values).resampled w.format.rate rate

end StepSequencer.SampleData
