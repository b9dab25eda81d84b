import StepSequencer.Number.Power

/-!
# Binary floating-point formats

A `BinaryFormat` is the layout of a floating-point number in bits: sign, exponent, fraction.
`decode` reads a bit pattern as a number `mantissa * 2 ^ exponent`, and `nearest` goes the other
way, from an exact quotient of natural numbers to the pattern of the closest number of the format.
-/

namespace StepSequencer

/-- What a bit pattern of a floating-point format stands for. -/
inductive Binary where
  | nan
  | infinite (negative : Bool)
  /-- The number `mantissa * 2 ^ exponent` with its sign. -/
  | finite (negative : Bool) (mantissa : Nat) (exponent : Int)
  deriving DecidableEq

/-- A floating-point layout, by the widths of its two fields. -/
structure BinaryFormat where
  fractionBits : Nat
  exponentBits : Nat
  deriving DecidableEq

namespace BinaryFormat

/-- The 32-bit format. -/
def single : BinaryFormat := ⟨23, 8⟩

/-- The 64-bit format. -/
def double : BinaryFormat := ⟨52, 11⟩

variable (format : BinaryFormat)

/-- The exponent field of infinities and not-a-numbers. -/
def topExponent : Nat := 2 ^ format.exponentBits - 1

/-- The exponent of the last place of the smallest numbers. -/
def leastExponent : Int :=
  2 - 2 ^ (format.exponentBits - 1) - format.fractionBits

/-- The pattern of positive infinity. -/
def infinity : Nat := format.topExponent * 2 ^ format.fractionBits

/-- The number a bit pattern stands for. -/
def decode (bits : Nat) : Binary :=
  let fraction := bits % 2 ^ format.fractionBits
  let field := bits / 2 ^ format.fractionBits % 2 ^ format.exponentBits
  let negative := bits / 2 ^ (format.fractionBits + format.exponentBits) % 2 = 1
  if field = format.topExponent then
    if fraction = 0 then .infinite negative else .nan
  else if field = 0 then .finite negative fraction format.leastExponent
  else
    .finite negative (2 ^ format.fractionBits + fraction)
      (format.leastExponent + (field - 1 : Nat))

/-- The quotient `num / den` to the nearest integer, a tie going to the even one. -/
def roundToEven (num den : Nat) : Nat :=
  let quotient := num / den
  let twice := 2 * (num % den)
  if twice < den then quotient
  else if den < twice then quotient + 1
  else quotient + quotient % 2

/-- The pattern of the nonnegative number of the format closest to `num / den`, a tie going to the
even mantissa; a quotient beyond the largest number gives infinity. The exponent is the least with
which the mantissa does not exceed its width, and a mantissa that rounds up to the next power of two
carries into the exponent field by itself. -/
def nearest (num den : Nat) : Nat :=
  if num = 0 then 0
  else
    let guess : Int := (Nat.log2 num : Int) - Nat.log2 den - (format.fractionBits + 1)
    let scaled (e : Int) : Nat × Nat := (num * 2 ^ (-e).toNat, den * 2 ^ e.toNat)
    let wide := scaled guess
    let exponent := if wide.1 / wide.2 < 2 ^ (format.fractionBits + 1) then guess else guess + 1
    let exponent := max exponent format.leastExponent
    let (num, den) := scaled exponent
    let field := (exponent - format.leastExponent).toNat
    min (field * 2 ^ format.fractionBits + roundToEven num den) format.infinity

/-- The pattern of the number of the format closest to a number. A not-a-number becomes the quiet one
without a sign. -/
def encode : Binary → Nat
  | .nan => format.infinity + 2 ^ (format.fractionBits - 1)
  | .infinite negative => signed negative format.infinity
  | .finite negative mantissa exponent =>
    signed negative (format.nearest (mantissa * 2 ^ exponent.toNat) (2 ^ (-exponent).toNat))
where
  /-- The pattern with a sign. -/
  signed (negative : Bool) (pattern : Nat) : Nat :=
    if negative then 2 ^ (format.fractionBits + format.exponentBits) + pattern else pattern

end BinaryFormat

/-- The number that a 32-bit float is. -/
def Binary.ofSingle (x : Float32) : Binary := BinaryFormat.single.decode x.toBits.toNat

/-- The number that a 64-bit float is. -/
def Binary.ofDouble (x : Float) : Binary := BinaryFormat.double.decode x.toBits.toNat

/-- The closest 32-bit float. -/
def Binary.toSingle (b : Binary) : Float32 :=
  Float32.ofBits (UInt32.ofNat (BinaryFormat.single.encode b))

/-- The closest 64-bit float. -/
def Binary.toDouble (b : Binary) : Float :=
  Float.ofBits (UInt64.ofNat (BinaryFormat.double.encode b))

end StepSequencer
