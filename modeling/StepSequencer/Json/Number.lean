import StepSequencer.Number.Reading

/-!
# Numbers of JSON

What a number literal stands for. A literal without a point and an exponent is a whole number if 64
bits hold it, signed when there is a minus; any other is real. A real's digits are gathered as long
as they fit a 64-bit word, and one power of ten brings them to their place, so the last bit is not
always that of the nearest float. A real beyond the finite floats is no number.
-/

namespace StepSequencer

/-- The parts of a number literal. -/
structure NumberLiteral where
  negative : Bool
  whole : List Char
  fraction : List Char
  /-- The sign and the digits of the exponent. -/
  exponent : Option (Bool × List Char)

/-- What a number literal stands for. -/
inductive JsonNumber where
  | whole (n : Int)
  | real (x : Float)

namespace NumberLiteral

/-- The part of a literal after its digits: a point with digits, and an exponent. -/
def ofTail (negative : Bool) (whole fraction : List Char) : List Char → NumberLiteral
  | e :: '-' :: digits =>
    if e == 'e' || e == 'E' then ⟨negative, whole, fraction, some (true, digits)⟩
    else ⟨negative, whole, fraction, none⟩
  | e :: '+' :: digits =>
    if e == 'e' || e == 'E' then ⟨negative, whole, fraction, some (false, digits)⟩
    else ⟨negative, whole, fraction, none⟩
  | e :: digits =>
    if e == 'e' || e == 'E' then ⟨negative, whole, fraction, some (false, digits)⟩
    else ⟨negative, whole, fraction, none⟩
  | [] => ⟨negative, whole, fraction, none⟩

/-- The parts of a literal without its sign. -/
def ofUnsigned (negative : Bool) (cs : List Char) : NumberLiteral :=
  let whole := cs.takeWhile Char.isDigit
  match cs.dropWhile Char.isDigit with
  | '.' :: rest =>
    ofTail negative whole (rest.takeWhile Char.isDigit) (rest.dropWhile Char.isDigit)
  | rest => ofTail negative whole [] rest

/-- The parts of a well-formed literal. -/
def ofChars : List Char → NumberLiteral
  | '-' :: cs => ofUnsigned true cs
  | cs => ofUnsigned false cs

/-- Whether the literal has neither a point nor an exponent. -/
def isWhole (l : NumberLiteral) : Bool := l.fraction.isEmpty && l.exponent.isNone

end NumberLiteral

namespace JsonNumber

/-- Appends digits to a number until it no longer fits 64 bits, and tells how many
were left over. -/
def gather (significand : Nat) : List Char → Nat × Nat
  | [] => (significand, 0)
  | d :: ds =>
    let next := 10 * significand + (d.toNat - '0'.toNat)
    if next < 2 ^ 64 then gather next ds else (significand, ds.length + 1)

/-- A power of ten as a float. -/
def powerOfTen (n : Nat) : Float := (Decimal.mk 1 n).toDouble

/-- The float times a power of ten, unless that is no finite float. -/
def scaled (x : Float) (power : Int) : Option Float :=
  if power.natAbs ≤ 308 then
    if 0 ≤ power then
      let y := x * powerOfTen power.natAbs
      if y.isInf then none else some y
    else some (x / powerOfTen power.natAbs)
  else if x == 0 then some x
  else if 0 ≤ power then none
  else scaled (x / powerOfTen 308) (power + 308)
termination_by power.natAbs
decreasing_by omega

/-- The size of a real: its digits and the power of ten of the last one. An exponent has 31 bits. -/
def realSize (significand : Nat) (power : Int) (exponent : Option (Bool × List Char)) :
    Option Float :=
  match exponent with
  | none => scaled significand.toUInt64.toFloat power
  | some (negative, digits) =>
    let e := readDigits digits
    if 2 ^ 31 ≤ e then if significand ≠ 0 && !negative then none else some 0
    else scaled significand.toUInt64.toFloat (if negative then power - e else power + e)

/-- The number that the parts of a literal stand for. -/
def ofLiteral (l : NumberLiteral) : Option JsonNumber :=
  let (significand, leftOver) := gather 0 l.whole
  if l.isWhole && leftOver == 0 then
    if !l.negative then some (.whole significand)
    else if significand = 0 || 2 ^ 63 < significand then
      some (.real (-significand.toUInt64.toFloat))
    else some (.whole (-significand))
  else
    let (significand', leftOver') := gather significand l.fraction
    let power : Int := leftOver - (l.fraction.length - leftOver' : Nat)
    (realSize significand' power l.exponent).map fun x ↦ .real (if l.negative then -x else x)

/-- The number that a literal stands for. -/
def ofString (literal : String) : Option JsonNumber :=
  ofLiteral (NumberLiteral.ofChars literal.toList)

end JsonNumber

end StepSequencer
