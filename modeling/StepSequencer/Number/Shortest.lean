import StepSequencer.Number.Binary

/-!
# Shortest decimal digits

The decimal text of a floating-point number has the fewest digits from which the number reads back,
and of those the digits nearest to its value. `shortest` finds them in exact arithmetic. A positive
number is an integer multiple of a quarter of its last place; so are the two bounds between which
every real rounds to it. For one digit, two, and so on, the two multiples of the power of ten around
the value are tested against the bounds, and the first hit wins.
-/

namespace StepSequencer

/-- The number `digits * 10 ^ exponent`. -/
structure Decimal where
  digits : Nat
  exponent : Int
  deriving DecidableEq

/-- Which of two equally near neighbours is taken. -/
inductive Tie where
  | up
  | even
  deriving DecidableEq

namespace Decimal

/-- How many decimal digits `n` has; zero has none. -/
def width (n : Nat) : Nat :=
  if h : n = 0 then 0 else width (n / 10) + 1
termination_by n
decreasing_by omega

/-- The greatest `k` with `10 ^ k ≤ num / den`, for a positive quotient. -/
def magnitude (num den : Nat) : Int :=
  if den ≤ num then (width (num / den) : Int) - 1
  else -(width ((den + num - 1) / num - 1) : Int)

/-- The decimal without trailing zeros in its digits. -/
def normalize (d : Decimal) : Decimal :=
  if h : d.digits = 0 then d
  else if d.digits % 10 = 0 then normalize ⟨d.digits / 10, d.exponent + 1⟩
  else d
termination_by d.digits
decreasing_by omega

/-- The reals that round to a positive number: `low`, `value` and `high` are numerators over one
denominator, and `closed` says whether the two ends belong. -/
structure Range where
  low : Nat
  value : Nat
  high : Nat
  den : Nat
  closed : Bool

/-- The reals that round to `mantissa * 2 ^ exponent`. The gap below a power of two is half as wide
as the gap above it, except among the numbers of the least exponent. -/
def Range.of (format : BinaryFormat) (mantissa : Nat) (exponent : Int) : Range :=
  let halved := mantissa = 2 ^ format.fractionBits ∧ format.leastExponent < exponent
  let scale := 2 ^ (exponent - 2).toNat
  { low := (4 * mantissa - if halved then 1 else 2) * scale
    value := 4 * mantissa * scale
    high := (4 * mantissa + 2) * scale
    den := 2 ^ (2 - exponent).toNat
    closed := mantissa % 2 = 0 }

/-- Whether the decimal lies in the range. -/
def Range.contains (r : Range) (d : Decimal) : Bool :=
  let num := d.digits * 10 ^ d.exponent.toNat * r.den
  let unit := 10 ^ (-d.exponent).toNat
  if r.closed then r.low * unit ≤ num && num ≤ r.high * unit
  else r.low * unit < num && num < r.high * unit

/-- The better of the two multiples of `10 ^ exponent` around the value, if one is in range. -/
def Range.candidate? (r : Range) (tie : Tie) (exponent : Int) : Option Decimal :=
  let num := r.value * 10 ^ (-exponent).toNat
  let den := r.den * 10 ^ exponent.toNat
  let below : Decimal := ⟨num / den, exponent⟩
  let above : Decimal := ⟨num / den + 1, exponent⟩
  let twice := 2 * (num % den)
  let lower := twice < den ∨ (twice = den ∧ tie = .even ∧ below.digits % 2 = 0)
  match r.contains below && below.digits != 0, r.contains above with
  | true, true => some (if lower then below else above)
  | true, false => some below
  | false, true => some above
  | false, false => none

/-- The first candidate among the grids of `fuel` growing digit counts; the last grid is taken as it
is, because its step is finer than the range. -/
def Range.search (r : Range) (tie : Tie) (exponent : Int) : Nat → Decimal
  | 0 => ⟨r.value * 10 ^ (-exponent).toNat / (r.den * 10 ^ exponent.toNat), exponent⟩
  | fuel + 1 =>
    match r.candidate? tie exponent with
    | some d => d
    | none => r.search tie (exponent - 1) fuel

/-- The shortest decimal that reads back as the positive number `mantissa * 2 ^ exponent`, and among
those the nearest. -/
def shortest (format : BinaryFormat) (tie : Tie) (mantissa : Nat) (exponent : Int) : Decimal :=
  if mantissa = 0 then ⟨0, 0⟩
  else
    let r := Range.of format mantissa exponent
    (r.search tie (magnitude r.value r.den) 18).normalize

end Decimal

end StepSequencer
