import StepSequencer.Number.Shortest

/-!
# Number layouts

How the digits of a number become text. A `NumberLayout` says which magnitudes are written
positionally, how the others show their exponent, and what stands for the values without digits.
Three layouts are in use: `plain` for messages and scripts, `precise` for values quoted in a
message, and `json` for stored tracks.
-/

namespace StepSequencer

/-- The decisions behind the text of a floating-point number. The power of ten of the leading digit
decides between the positional and the exponent form. -/
structure NumberLayout where
  /-- The least leading power written positionally; none is too small if absent. -/
  leastPower : Option Int
  /-- The greatest leading power written positionally; none is too large if absent. -/
  greatestPower : Option Int
  /-- Whether a whole number written positionally ends in `.0`. -/
  keepsPoint : Bool
  /-- Whether a positive exponent has a plus sign. -/
  signsExponent : Bool
  tie : Tie
  nan : String
  infinity : String
  negativeInfinity : String

namespace NumberLayout

/-- Always positional, and no point in a whole number. -/
def plain : NumberLayout where
  leastPower := none
  greatestPower := none
  keepsPoint := false
  signsExponent := false
  tie := .up
  nan := "NaN"
  infinity := "inf"
  negativeInfinity := "-inf"

/-- Positional from `1e-4` to below `1e16`, and a point in every positional number. -/
def precise : NumberLayout where
  leastPower := some (-4)
  greatestPower := some 15
  keepsPoint := true
  signsExponent := false
  tie := .up
  nan := "NaN"
  infinity := "inf"
  negativeInfinity := "-inf"

/-- Positional from `1e-5` to below `1e16`; a value without digits is null. -/
def json : NumberLayout where
  leastPower := some (-5)
  greatestPower := some 15
  keepsPoint := true
  signsExponent := true
  tie := .even
  nan := "null"
  infinity := "null"
  negativeInfinity := "null"

/-- A run of zeros. -/
def zeros (n : Nat) : String := String.ofList (List.replicate n '0')

/-- The positional text of the decimal. -/
def positional (keepsPoint : Bool) (d : Decimal) : String :=
  let digits := Nat.toDigits 10 d.digits
  if 0 ≤ d.exponent then
    String.ofList digits ++ (if d.digits = 0 then "" else zeros d.exponent.toNat)
      ++ (if keepsPoint then ".0" else "")
  else
    let places := (-d.exponent).toNat
    if digits.length ≤ places then
      "0." ++ zeros (places - digits.length) ++ String.ofList digits
    else
      String.ofList (digits.take (digits.length - places)) ++ "."
        ++ String.ofList (digits.drop (digits.length - places))

/-- The text of the decimal with one digit before the point and an exponent. -/
def scientific (signsExponent : Bool) (power : Int) (d : Decimal) : String :=
  let digits := Nat.toDigits 10 d.digits
  let fraction := digits.drop 1
  String.ofList (digits.take 1)
    ++ (if fraction.isEmpty then "" else "." ++ String.ofList fraction)
    ++ "e" ++ (if signsExponent && 0 ≤ power then "+" else "") ++ toString power

variable (layout : NumberLayout)

/-- The text of a decimal. -/
def decimal (d : Decimal) : String :=
  let power := d.exponent + (Nat.toDigits 10 d.digits).length - 1
  let small := layout.leastPower.any (power < ·)
  let large := layout.greatestPower.any (· < power)
  if d.digits ≠ 0 && (small || large) then scientific layout.signsExponent power d
  else positional layout.keepsPoint d

/-- The text of a number of a format. -/
def binary (format : BinaryFormat) : Binary → String
  | .nan => layout.nan
  | .infinite false => layout.infinity
  | .infinite true => layout.negativeInfinity
  | .finite negative mantissa exponent =>
    (if negative then "-" else "")
      ++ layout.decimal (Decimal.shortest format layout.tie mantissa exponent)

/-- The text of a 32-bit float. -/
def single (x : Float32) : String := layout.binary .single (Binary.ofSingle x)

/-- The text of a 64-bit float. -/
def double (x : Float) : String := layout.binary .double (Binary.ofDouble x)

end NumberLayout

end StepSequencer
