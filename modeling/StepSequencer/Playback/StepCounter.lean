/-!
# Step counters

A counter hands out the steps of a loop in order and starts again after the last.
-/

namespace StepSequencer

/-- The step that comes next in a loop. -/
structure StepCounter where
  length : Nat
  position : Nat
  position_lt : position < length

namespace StepCounter

/-- The counter at the start of a loop. A loop has at least one step. -/
def start (length : Nat) : StepCounter := ⟨max length 1, 0, by omega⟩

/-- The counter after its next step. -/
def advance (c : StepCounter) : StepCounter :=
  if h : c.position + 1 < c.length then ⟨c.length, c.position + 1, h⟩
  else ⟨c.length, 0, Nat.zero_lt_of_lt c.position_lt⟩

/-- The counter at the start of its loop. -/
def reset (c : StepCounter) : StepCounter := ⟨c.length, 0, Nat.zero_lt_of_lt c.position_lt⟩

/-- Advancing counts modulo the length of the loop. -/
theorem advance_position (c : StepCounter) :
    c.advance.position = (c.position + 1) % c.length := by
  have hlt := c.position_lt
  unfold advance
  split
  · next h => exact (Nat.mod_eq_of_lt h).symm
  · next h =>
    have hlast : c.position + 1 = c.length := by omega
    simp [hlast]

@[simp] theorem advance_length (c : StepCounter) : c.advance.length = c.length := by
  unfold advance
  split <;> rfl

end StepCounter

end StepSequencer
