import StepSequencer.Number.Binary

/-!
# Spans of time

A `Span` is a whole number of nanoseconds. It is made from a number of seconds by rounding, and is
shown in the largest unit of which it has at least one.
-/

namespace StepSequencer

/-- A length of time. -/
structure Span where
  nanoseconds : Nat
  deriving DecidableEq

/-- Why a number of seconds is not a span. -/
inductive SpanError where
  | negative
  | tooLarge
  deriving DecidableEq

/-- The wording of the error. -/
def SpanError.message : SpanError → String
  | .negative => "cannot convert float seconds to Duration: value is negative"
  | .tooLarge => "cannot convert float seconds to Duration: value is either too big or NaN"

namespace Span

/-- The whole seconds of the span. -/
def seconds (s : Span) : Nat := s.nanoseconds / 1000000000

/-- The nanoseconds past the whole seconds. -/
def subsecond (s : Span) : Nat := s.nanoseconds % 1000000000

/-- The span closest to a number of seconds, a tie going to the even nanosecond. Seconds are counted
in 64 bits. -/
def ofSeconds (x : Float) : Except SpanError Span :=
  match Binary.ofDouble x with
  | .nan => .error .tooLarge
  | .infinite negative => .error (if negative then .negative else .tooLarge)
  | .finite negative mantissa exponent =>
    if negative && mantissa != 0 then .error .negative
    else
      let num := mantissa * 2 ^ exponent.toNat
      let den := 2 ^ (-exponent).toNat
      if 2 ^ 64 ≤ num / den then .error .tooLarge
      else .ok ⟨BinaryFormat.roundToEven (num * 1000000000) den⟩

/-- A count of units with the part of a unit that follows, `places` digits wide, written
without trailing zeros. -/
def unitText (whole part places : Nat) (unit : String) : String :=
  let digits := Nat.toDigits 10 part
  let padded := List.replicate (places - digits.length) '0' ++ digits
  let kept := (padded.reverse.dropWhile (· == '0')).reverse
  toString whole ++ (if kept.isEmpty then "" else "." ++ String.ofList kept) ++ unit

/-- The span in seconds, or in the largest smaller unit that it reaches. -/
def text (s : Span) : String :=
  if 0 < s.seconds then unitText s.seconds s.subsecond 9 "s"
  else if 1000000 ≤ s.nanoseconds then
    unitText (s.nanoseconds / 1000000) (s.nanoseconds % 1000000) 6 "ms"
  else if 1000 ≤ s.nanoseconds then
    unitText (s.nanoseconds / 1000) (s.nanoseconds % 1000) 3 "µs"
  else unitText s.nanoseconds 0 0 "ns"

end Span

end StepSequencer
