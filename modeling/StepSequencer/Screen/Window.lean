import StepSequencer.Number.Power

/-!
# Windows onto the steps

When not all steps fit side by side they are shown in pages, and the window is the page of the
current step.
-/

namespace StepSequencer.Screen

/-- The steps from `start` up to, and without, `stop`. -/
structure Window where
  start : Nat
  stop : Nat
  deriving DecidableEq

namespace Window

/-- The steps of the window, in order. -/
def steps (w : Window) : List Nat := List.range' w.start (w.stop - w.start)

/-- The steps that are shown in `width` columns. A width counts modulo 2 ^ 32. -/
def ofWidth (steps width : Nat) (current : Option Nat) : Window :=
  let width := width % 2 ^ 32
  if steps ≤ width then ⟨0, steps⟩
  else
    let current := min (current.getD 0) (steps - 1)
    let start := current / max width 1 * width
    ⟨start, min (start + width) steps⟩

end Window

end StepSequencer.Screen
