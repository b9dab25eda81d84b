/-!
# Frames

Sound is a list of stereo frames. A device takes each frame as one value per channel.
-/

namespace StepSequencer

/-- The sound at one moment. -/
structure Frame where
  left : Float32
  right : Float32

namespace Frame

/-- No sound. -/
def silent : Frame := ⟨0, 0⟩

/-- The mean of the two sides. -/
def mono (f : Frame) : Float32 := (f.left + f.right) * 0.5

/-- The frame with another one, at a gain, mixed in. -/
def mixIn (f : Frame) (gain : Float32) (other : Frame) : Frame :=
  ⟨f.left + other.left * gain, f.right + other.right * gain⟩

/-- The values of a frame on a device: a single channel gets the mean, and further channels than
two stay silent. -/
def spread (f : Frame) : Nat → List Float32
  | 0 => []
  | 1 => [f.mono]
  | extra + 2 => f.left :: f.right :: List.replicate extra 0

/-- A frame has one value per channel. -/
@[simp] theorem length_spread (f : Frame) (channels : Nat) :
    (f.spread channels).length = channels := by
  match channels with
  | 0 => rfl
  | 1 => rfl
  | extra + 2 => simp [spread]

end Frame

/-- The device's data with the frames written over it, one after the other. What does not make a
whole frame keeps its old values. -/
def interleave (channels : Nat) : List Frame → List Float32 → List Float32
  | [], data => data
  | f :: frames, data =>
    if (data.take channels).length < channels then data
    else f.spread channels ++ interleave channels frames (data.drop channels)

/-- Writing frames does not change how much data there is. -/
theorem length_interleave (channels : Nat) (frames : List Frame) (data : List Float32) :
    (interleave channels frames data).length = data.length := by
  induction frames generalizing data with
  | nil => rfl
  | cons f frames ih =>
    unfold interleave
    split
    · rfl
    · next h =>
      simp only [List.length_take] at h
      simp only [List.length_append, Frame.length_spread, ih, List.length_drop]
      omega

end StepSequencer
