import StepSequencer.Track.Basic

/-!
# The pattern of a track

Three views of which slots fire when: the slots that fire on a step, whether a slot's number fires
on a step, and the grid of all slots over the first steps.
-/

namespace StepSequencer.Track

variable (t : Track)

/-- The slots that fire on a step, in the track's order. -/
def triggered (step : Int64) : List Slot :=
  t.slots.filter fun s ↦ s.rule.fires step

/-- Whether a slot of this number fires on a step. -/
def triggers (id : SlotId) (step : Int64) : Bool :=
  t.slots.any fun s ↦ s.id == id && s.rule.fires step

/-- One row per slot, with a cell for each of the first steps. -/
def grid (length : Nat) : List (List Bool) :=
  t.slots.map fun s ↦ (List.range length).map fun step ↦ s.rule.fires (Int64.ofNat step)

end StepSequencer.Track
