import StepSequencer.Number.Shortest

/-!
# Reading decimal numbers

From decimal digits to a floating-point number. `Decimal.toSingle` and `Decimal.toDouble` round
correctly: the exact value goes to the nearest number of the format. `readDigits` is the value of a
run of digits.
-/

namespace StepSequencer

/-- The value of a run of decimal digits. -/
def readDigits (digits : List Char) : Nat :=
  digits.foldl (fun n c ↦ 10 * n + (c.toNat - '0'.toNat)) 0

namespace Decimal

/-- The pattern of the number of the format closest to the decimal. Powers of ten far outside the
format's range are settled without being computed. -/
def nearest (format : BinaryFormat) (d : Decimal) : Nat :=
  let power := d.exponent + width d.digits
  if d.digits = 0 || power < -400 then 0
  else if 400 < power then format.infinity
  else format.nearest (d.digits * 10 ^ d.exponent.toNat) (10 ^ (-d.exponent).toNat)

/-- The closest 32-bit float. -/
def toSingle (d : Decimal) : Float32 :=
  Float32.ofBits (UInt32.ofNat (d.nearest .single))

/-- The closest 64-bit float. -/
def toDouble (d : Decimal) : Float :=
  Float.ofBits (UInt64.ofNat (d.nearest .double))

/-- The decimal with these digits before and after its point, times a power of ten. -/
def ofDigits (whole fraction : List Char) (power : Int) : Decimal :=
  ⟨readDigits (whole ++ fraction), power - fraction.length⟩

end Decimal

end StepSequencer
