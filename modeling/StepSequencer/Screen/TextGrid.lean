import StepSequencer.Track.Pattern

/-!
# The grid as text

One line per slot with a cell for each step, below a ruler that counts the steps. The labels stand
to the left, all of the same width.
-/

namespace StepSequencer.Screen

/-- The mark of a step on which a slot fires, or does not. -/
def cell (fires : Bool) : Char := if fires then '■' else '·'

/-- The least width of a label. -/
def labelWidth : Nat := 6

/-- The number of steps that a grid shows. -/
def gridSteps (grid : List (List Bool)) : Nat := (grid.head?.map (·.length)).getD 0

/-- A line of the grid: a label flush right in its column, two blanks, and the marks. -/
def gridLine (width : Nat) (label : String) (marks : List Char) : String :=
  String.ofList (label.toList.leftpad width ' ' ++ [' ', ' '] ++ marks ++ ['\n'])

/-- The last digit of a number. -/
def lastDigit (n : Nat) : Char := Char.ofNat ('0'.toNat + n % 10)

/-- The grid of the slots as text. -/
def textGrid (slots : List Slot) (grid : List (List Bool)) : String :=
  let width := slots.foldl (fun width s ↦ max width s.label.length) labelWidth
  let ruler := gridLine width "" ((List.range (gridSteps grid)).map lastDigit)
  let rows := (slots.zip grid).map fun (s, row) ↦ gridLine width s.label (row.map cell)
  ruler ++ String.join rows

end StepSequencer.Screen
