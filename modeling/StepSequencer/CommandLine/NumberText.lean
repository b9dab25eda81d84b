import StepSequencer.Number.Reading

/-!
# Numbers given as text

How a number may be written on the command line: a count as decimal digits, a float with a point and
an exponent as well, or as one of the words for infinity and for no number.
-/

namespace StepSequencer

/-- Why a text is no number. -/
inductive NumberTextError where
  | emptyCount
  | invalidDigit
  | tooLarge
  | emptyFloat
  | invalidFloat
  deriving DecidableEq

/-- The wording of the error. -/
def NumberTextError.message : NumberTextError → String
  | .emptyCount => "cannot parse integer from empty string"
  | .invalidDigit => "invalid digit found in string"
  | .tooLarge => "number too large to fit in target type"
  | .emptyFloat => "cannot parse float from empty string"
  | .invalidFloat => "invalid float literal"

namespace NumberText

/-- The count whose first digits have the value `n`. The first character that is no digit, or that
takes the value beyond 64 bits, decides. -/
def countFrom (n : Nat) : List Char → Except NumberTextError Nat
  | [] => .ok n
  | c :: cs =>
    if !c.isDigit then .error .invalidDigit
    else
      let n := 10 * n + (c.toNat - '0'.toNat)
      if 2 ^ 64 ≤ n then .error .tooLarge else countFrom n cs

/-- The count that a text stands for. It may have a plus sign. -/
def count (text : String) : Except NumberTextError Nat :=
  match text.toList with
  | [] => .error .emptyCount
  | ['+'] => .error .invalidDigit
  | '+' :: digits => countFrom 0 digits
  | digits => countFrom 0 digits

/-- The power of ten after a mantissa, where nothing means none. -/
def power? : List Char → Option Int
  | [] => some 0
  | e :: cs =>
    if e != 'e' && e != 'E' then none
    else
      let (negative, digits) : Bool × List Char := match cs with
        | '-' :: digits => (true, digits)
        | '+' :: digits => (false, digits)
        | digits => (false, digits)
      if digits.isEmpty || !digits.all Char.isDigit then none
      else some (if negative then -(readDigits digits : Int) else readDigits digits)

/-- The decimal that a text without a sign stands for. A digit is needed before or
after the point. -/
def decimal? (cs : List Char) : Option Decimal :=
  let whole := cs.takeWhile Char.isDigit
  let (fraction, rest) : List Char × List Char := match cs.dropWhile Char.isDigit with
    | '.' :: rest => (rest.takeWhile Char.isDigit, rest.dropWhile Char.isDigit)
    | rest => ([], rest)
  if whole.isEmpty && fraction.isEmpty then none
  else (power? rest).map (Decimal.ofDigits whole fraction)

/-- The float that a text without a sign stands for. -/
def unsigned? (cs : List Char) : Option Float32 :=
  let word := cs.map Char.toLower
  if word = "inf".toList || word = "infinity".toList then some (1 / 0)
  else if word = "nan".toList then some (0 / 0)
  else (decimal? cs).map Decimal.toSingle

/-- The float that a text stands for. It may have a sign. -/
def float (text : String) : Except NumberTextError Float32 :=
  let found : Option Float32 := match text.toList with
    | '-' :: cs => (unsigned? cs).map fun x ↦ -x
    | '+' :: cs => unsigned? cs
    | cs => unsigned? cs
  match found with
  | some x => .ok x
  | none => .error (if text.isEmpty then .emptyFloat else .invalidFloat)

end NumberText

end StepSequencer
