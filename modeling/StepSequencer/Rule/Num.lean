import StepSequencer.Number.Word

/-!
# Numbers of step arithmetic

A number is a whole number while it can be one. Whole operands give a whole result as long as it is
exact and fits a word; otherwise both become floats and so does the result. Division and remainder
round toward negative infinity. The only operations without a value are whole division and whole
remainder by zero.
-/

namespace StepSequencer

/-- A number: whole, or floating point. -/
inductive Num where
  | int (n : Int64)
  | float (x : Float)
  deriving BEq

namespace Num

/-- The number as a float. -/
def toFloat : Num → Float
  | .int n => Word.toFloat n
  | .float x => x

/-- The negation. The least whole number has no whole negation and becomes a float. -/
def neg : Num → Num
  | .int n => match Word.neg? n with
    | some m => .int m
    | none => .float (-Word.toFloat n)
  | .float x => .float (-x)

/-- How two numbers stand to each other; a not-a-number stands in no order. Whole numbers are
compared exactly, and a whole number and a float as floats. -/
def compare : Num → Num → Option Ordering
  | .int a, .int b => some (Ord.compare a b)
  | a, b =>
    let x := a.toFloat
    let y := b.toFloat
    if x < y then some .lt
    else if x == y then some .eq
    else if y < x then some .gt
    else none

end Num

/-! ### Arithmetic -/

/-- An arithmetic operator. -/
inductive ArithOp where
  | add
  | sub
  | mul
  | div
  | rem
  | pow
  deriving DecidableEq

namespace ArithOp

/-- The written form of the operator. -/
def symbol : ArithOp → String
  | .add => "+"
  | .sub => "-"
  | .mul => "*"
  | .div => "/"
  | .rem => "%"
  | .pow => "**"

/-- The operator on whole numbers, where every step of it has an exact value within a word. A
negative exponent gives a fraction, and an exponent has 32 bits. -/
def onWords? (op : ArithOp) (x y : Int64) : Option Int64 :=
  match op with
  | .add => Word.add? x y
  | .sub => Word.sub? x y
  | .mul => Word.mul? x y
  | .div => Word.floorDiv? x y
  | .rem => Word.floorMod? x y
  | .pow => if 0 ≤ y.toInt ∧ y.toInt < 2 ^ 32 then Word.pow? x y.toInt.toNat else none

/-- The operator on floats. -/
def onFloats (op : ArithOp) (x y : Float) : Float :=
  match op with
  | .add => x + y
  | .sub => x - y
  | .mul => x * y
  | .div => x / y
  | .rem => x - y * (x / y).floor
  | .pow => x.pow y

/-- Whether the operator divides, so that a whole zero on its right leaves no value. -/
def divides : ArithOp → Bool
  | .div | .rem => true
  | _ => false

/-- The value of the operator; there is none for a whole division by zero. -/
def apply (op : ArithOp) : Num → Num → Option Num
  | .int x, .int y =>
    if op.divides && y == 0 then none
    else match op.onWords? x y with
      | some n => some (.int n)
      | none => some (.float (op.onFloats (Word.toFloat x) (Word.toFloat y)))
  | a, b => some (.float (op.onFloats a.toFloat b.toFloat))

end ArithOp

/-! ### Comparison -/

/-- An ordering operator. -/
inductive OrderOp where
  | lt
  | le
  | gt
  | ge
  deriving DecidableEq

/-- A comparison operator. -/
inductive CmpOp where
  | eq
  | order (op : OrderOp)
  deriving DecidableEq

/-- The written form of the operator. -/
def OrderOp.symbol : OrderOp → String
  | .lt => "<"
  | .le => "<="
  | .gt => ">"
  | .ge => ">="

/-- Whether the operator accepts an order. -/
def OrderOp.accepts : OrderOp → Ordering → Bool
  | .lt, o => o == .lt
  | .le, o => o != .gt
  | .gt, o => o == .gt
  | .ge, o => o != .lt

namespace CmpOp

/-- Every comparison operator. -/
def all : List CmpOp := [.eq, .order .lt, .order .le, .order .gt, .order .ge]

/-- The written form of the operator. -/
def symbol : CmpOp → String
  | .eq => "=="
  | .order op => op.symbol

/-- Whether the operator accepts an order. -/
def accepts : CmpOp → Ordering → Bool
  | .eq, o => o == .eq
  | .order op, o => op.accepts o

/-- Whether the comparison holds; it does not where the numbers stand in no order. -/
def holds (op : CmpOp) (a b : Num) : Bool :=
  match a.compare b with
  | some o => op.accepts o
  | none => false

end CmpOp

end StepSequencer
