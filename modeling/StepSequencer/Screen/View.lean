import StepSequencer.Screen.State
import StepSequencer.Screen.TextGrid
import StepSequencer.Screen.Window

/-!
# The view of a run

The screen is a table of cells: a header, the grid of the slots in a box, and the key help. Whatever
does not fit to the right or below is cut off. Every character takes one cell.
-/

namespace StepSequencer.Screen

/-- The color of a cell's text. -/
inductive Tone where
  | plain
  | dim
  | lit
  deriving DecidableEq

/-- One place of the screen. -/
structure Cell where
  char : Char
  tone : Tone
  /-- Whether the cell belongs to the current step. -/
  current : Bool
  deriving DecidableEq

namespace Cell

/-- A place nothing was written to. -/
def blank : Cell := ⟨' ', .plain, false⟩

/-- A character in a tone. -/
def ofChar (tone : Tone) (c : Char) : Cell := ⟨c, tone, false⟩

end Cell

/-- The cells of a text. -/
def cellsOf (tone : Tone) (text : String) : List Cell := text.toList.map (Cell.ofChar tone)

/-- A row of exactly `width` cells: the rest is cut off or filled up. -/
def fit {α : Type} (width : Nat) (fill : α) (row : List α) : List α :=
  row.take width ++ List.replicate (width - row.length) fill

/-! ### The header -/

/-- The text of the header. -/
def headerText (t : Track) (s : State) : String :=
  let step := (s.step.map toString).getD "-"
  t.name ++ "  " ++ NumberLayout.plain.single t.bpm ++ " bpm  step " ++ step ++ "/"
    ++ toString t.stepCount.toNat ++ "  tick " ++ toString s.ticks ++ "  fired "
    ++ toString s.lastFired.length ++ "  " ++ s.status

/-- Whether the character is a control character, which is not drawn. -/
def isControl (c : Char) : Bool := c.toNat < 0x20 || (0x7f ≤ c.toNat && c.toNat < 0xa0)

/-- The header, without control characters. -/
def header (width : Nat) (t : Track) (s : State) : List Cell :=
  let shown := (headerText t s).toList.filter fun c ↦ !isControl c
  fit width .blank (shown.map (Cell.ofChar .plain))

/-! ### The grid -/

/-- The mark of one step of a slot. -/
def markCell (row : List Bool) (current : Option Nat) (step : Nat) : Cell :=
  let fires := row[step]?.getD false
  ⟨cell fires, if fires then .lit else .dim, current == some step⟩

/-- The line of a slot: its number and its marks within a window. -/
def slotLine (w : Window) (current : Option Nat) (s : Slot) (row : List Bool) : List Cell :=
  let number := (toString s.id.toNat).toList.leftpad 4 ' ' ++ [' ', ' ']
  number.map (Cell.ofChar .dim) ++ w.steps.map (markCell row current)

/-- The lines of the grid that stand in `width` columns. -/
def gridLines (width : Nat) (t : Track) (grid : List (List Bool)) (current : Option Nat) :
    List (List Cell) :=
  let w := Window.ofWidth (gridSteps grid) (width - labelWidth) current
  (t.slots.zip grid).map fun (s, row) ↦ slotLine w current s row

/-! ### The box -/

/-- A row of the box: what stands inside, between the two edges. -/
def boxRow (width : Nat) (left right : Char) (inside : List Cell) : List Cell :=
  (Cell.ofChar .plain left :: inside ++ [Cell.ofChar .plain right]).take width

/-- A box of `width` by `height` cells around some lines, with a title in its upper edge. -/
def box (width height : Nat) (title : String) (lines : List (List Cell)) : List (List Cell) :=
  let inner := width - 2
  let edge := Cell.ofChar .plain '─'
  let top := boxRow width '┌' '┐' (fit inner edge (cellsOf .plain title))
  let bottom := boxRow width '└' '┘' (fit inner edge [])
  let rows := fit (height - 2) [] lines
  top :: rows.map (fun line ↦ boxRow width '│' '│' (fit inner .blank line)) ++ [bottom]

/-! ### The whole screen -/

/-- The key help. -/
def keyHelp : String := "space pause/resume   q/esc quit"

/-- The rows of a screen of `width` by `height` cells, for a height of five or more. -/
def view (width height : Nat) (t : Track) (grid : List (List Bool)) (s : State) :
    List (List Cell) :=
  header width t s :: box width (height - 2) " steps " (gridLines (width - 2) t grid s.step)
    ++ [fit width (.ofChar .dim ' ') (cellsOf .dim keyHelp)]

end StepSequencer.Screen
