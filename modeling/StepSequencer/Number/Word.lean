import StepSequencer.Number.Power

/-!
# Signed words with checked arithmetic

A stored whole number is a 64-bit word. The operations here do not wrap: each computes the exact
integer and answers `none` when no word holds it, so that its caller decides what takes over. They
all rest on `ofInt?`, the partial inverse of `Int64.toInt`.

Division rounds toward negative infinity.
-/

namespace StepSequencer.Word

/-- The word whose value is `n`, when there is one. -/
def ofInt? (n : Int) : Option Int64 :=
  if -2 ^ 63 ≤ n ∧ n < 2 ^ 63 then some (Int64.ofInt n) else none

theorem ofInt?_eq_some_iff {n : Int} {w : Int64} : ofInt? n = some w ↔ w.toInt = n := by
  unfold ofInt?
  split
  · next h =>
    rw [Option.some.injEq]
    constructor
    · rintro rfl
      exact Int64.toInt_ofInt_of_le h.1 h.2
    · rintro rfl
      exact Int64.ofInt_toInt w
  · next h =>
    refine ⟨nofun, ?_⟩
    rintro rfl
    exact absurd ⟨w.le_toInt, w.toInt_lt⟩ h

theorem ofInt?_toInt (w : Int64) : ofInt? w.toInt = some w :=
  ofInt?_eq_some_iff.2 rfl

/-- The exact sum. -/
def add? (a b : Int64) : Option Int64 :=
  ofInt? (a.toInt + b.toInt)

/-- The exact difference. -/
def sub? (a b : Int64) : Option Int64 :=
  ofInt? (a.toInt - b.toInt)

/-- The exact product. -/
def mul? (a b : Int64) : Option Int64 :=
  ofInt? (a.toInt * b.toInt)

/-- The exact negation; only the least word has none. -/
def neg? (a : Int64) : Option Int64 :=
  ofInt? (-a.toInt)

/-- The exact product of `acc` and a power of `base`: the base is squared while the exponent halves,
and joins the product at the odd exponents. Each product is checked. The base is not squared once
more after the last of them. -/
def powFrom? (acc base : Int64) (exponent : Nat) : Option Int64 :=
  if exponent = 0 then some acc
  else (if exponent % 2 = 1 then mul? acc base else some acc).bind fun product ↦
    if exponent = 1 then some product
    else (mul? base base).bind fun square ↦ powFrom? product square (exponent / 2)

/-- The exact power. -/
def pow? (a : Int64) (exponent : Nat) : Option Int64 :=
  powFrom? 1 a exponent

/-- The quotient rounded toward negative infinity: the quotient rounded toward zero, less one when
the division leaves a remainder and the signs differ. There is none for a zero divisor, nor where
the quotient is too large for a word. -/
def floorDiv? (a b : Int64) : Option Int64 :=
  if b = 0 then none
  else (ofInt? (a.toInt.tdiv b.toInt)).map fun q ↦
    if a.toInt.tmod b.toInt ≠ 0 ∧ (a < 0) ≠ (b < 0) then q - 1 else q

/-- The remainder that belongs to `floorDiv?`, where every step to it fits a word. -/
def floorMod? (a b : Int64) : Option Int64 :=
  (floorDiv? a b).bind fun q ↦ (mul? b q).bind fun p ↦ sub? a p

/-- The closest 64-bit float. -/
def toFloat (a : Int64) : Float :=
  let magnitude := (UInt64.ofNat a.toInt.natAbs).toFloat
  if a.toInt < 0 then -magnitude else magnitude

end StepSequencer.Word
