import Mathlib.Data.Rat.Floor
import StepSequencer.Proofs.Script.Arithmetic

/-!
# Arithmetic on whole numbers

What an operator gives for two whole numbers, over every pair of words.

* `exact_or_promoted`: a sum, difference, product, quotient or power is the exact one wherever a word
  holds that, and a float elsewhere. It rests on the exactness of the operations on words, repeated
  squaring included: no step on the way to a result overflows unless the result does.
* `remainder_exact_iff`: a remainder is computed through the quotient and its product with the
  divisor. The residue of two words is always a word, but it is found only where both of these are.
-/

namespace StepSequencer

open Script.Host (exactResult?)

namespace Word

/-! ### Floored division -/

theorem fdiv_eq_floor (a b : Int) : a.fdiv b = ⌊(a : ℚ) / b⌋ := by
  have hnonneg (a : Int) (n : ℕ) : a.fdiv n = ⌊(a : ℚ) / n⌋ := by
    rw [Int.fdiv_eq_ediv_of_nonneg a n.cast_nonneg, Rat.floor_intCast_div_natCast]
  obtain ⟨n, rfl | rfl⟩ := b.eq_nat_or_neg
  · exact hnonneg a n
  · rw [← Int.neg_fdiv_neg, neg_neg, hnonneg, Int.cast_neg, Int.cast_neg, neg_div, div_neg,
      Int.cast_natCast]

/-- The residue of a division that is rounded down: on the side of the divisor, and closer to zero. -/
structure IsResidue (x y r : Int) : Prop where
  dvd : y ∣ x - r
  of_pos : 0 < y → 0 ≤ r ∧ r < y
  of_neg : y < 0 → y < r ∧ r ≤ 0

theorem isResidue_fmod (x y : Int) : IsResidue x y (x.fmod y) where
  dvd := ⟨x.fdiv y, (Int.mul_fdiv_self x y).symm⟩
  of_pos hy := ⟨Int.fmod_nonneg_of_pos x hy, Int.fmod_lt_of_pos x hy⟩
  of_neg hy := by
    have hlow := Int.fmod_nonneg_of_pos (-x) (Int.neg_pos_of_neg hy)
    have hhigh := Int.fmod_lt_of_pos (-x) (Int.neg_pos_of_neg hy)
    rw [Int.neg_fmod_neg] at hlow hhigh
    omega

end Word

open Word

namespace ArithOp

variable {op : ArithOp} {x y : Int64}

/-! ### Operators on whole numbers -/

theorem apply_eq_none_iff : op.apply (.int x) (.int y) = none ↔ op.divides = true ∧ y = 0 := by
  rw [← beq_iff_eq (a := y), ← Bool.and_eq_true, apply]
  split
  · next h => exact ⟨fun _ ↦ h, fun _ ↦ rfl⟩
  · next h =>
    refine ⟨fun hnone ↦ ?_, fun htrue ↦ absurd htrue h⟩
    split at hnone <;> cases hnone

/-- A result that is no word is a float. -/
theorem apply_of_onWords?_none (hzero : op.divides = true → y ≠ 0) (h : op.onWords? x y = none) :
    op.apply (.int x) (.int y) = some (.float (op.onFloats (toFloat x) (toFloat y))) := by
  have hnone : ¬(op.divides && y == 0) = true := by
    rw [Bool.and_eq_true, beq_iff_eq]
    exact fun ⟨hdivides, hy⟩ ↦ hzero hdivides hy
  rw [apply, if_neg hnone, h]

/-- An operator other than the remainder answers exactly with the results that fit a word. -/
theorem onWords?_eq_some_iff {w : Int64} (hrem : op ≠ .rem) (hpow : op = .pow → y.toInt < 2 ^ 32) :
    op.onWords? x y = some w ↔ exactResult? op x.toInt y.toInt = some w.toInt := by
  refine ⟨Script.exactResult?_of_onWords?, fun h ↦ ?_⟩
  cases op with
  | add => exact add?_eq_some_iff.mpr (Option.some.inj h).symm
  | sub => exact sub?_eq_some_iff.mpr (Option.some.inj h).symm
  | mul => exact ofInt?_eq_some_iff.mpr (Option.some.inj h).symm
  | div =>
    rw [exactResult?] at h
    split at h
    · cases h
    · next hy =>
      have hquotient : x.toInt.fdiv y.toInt = w.toInt := Option.some.inj h
      rcases hq : floorDiv? x y with - | q
      · -- the one quotient that is no word is not the value of one
        rcases floorDiv?_eq_none_iff.mp hq with rfl | ⟨rfl, rfl⟩
        · exact absurd rfl hy
        · have hlt := w.toInt_lt
          rw [← hquotient] at hlt
          exact absurd hlt (by decide)
      · rw [onWords?, hq, ← Int64.toInt_inj.mp ((toInt_of_floorDiv? hq).2.trans hquotient)]
  | rem => exact absurd rfl hrem
  | pow =>
    rw [exactResult?] at h
    split at h
    · next hnonneg =>
      -- words are raised only to exponents below the bound
      rw [onWords?, if_pos ⟨hnonneg, hpow rfl⟩]
      exact pow?_eq_some_iff.mpr (Option.some.inj h).symm
    · cases h

/-- The operator gives the whole number `n` where a word holds it, and a float where none does. -/
structure GivesOrPromotes (op : ArithOp) (x y : Int64) (n : Int) : Prop where
  whole : Holds n → ∃ w : Int64, op.apply (.int x) (.int y) = some (.int w) ∧ w.toInt = n
  promoted : ¬Holds n →
    op.apply (.int x) (.int y) = some (.float (op.onFloats (toFloat x) (toFloat y)))

theorem givesOrPromotes (hrem : op ≠ .rem) (hpow : op = .pow → y.toInt < 2 ^ 32)
    (hzero : op.divides = true → y ≠ 0) {n : Int} (h : exactResult? op x.toInt y.toInt = some n) :
    op.GivesOrPromotes x y n := by
  have hwords {w : Int64} : op.onWords? x y = some w ↔ w.toInt = n := by
    rw [onWords?_eq_some_iff hrem hpow, h, Option.some.injEq, eq_comm]
  constructor
  · intro hholds
    obtain ⟨w, -, hw⟩ := ofInt?_of_holds hholds
    exact ⟨w, apply_of_onWords? (hwords.mpr hw), hw⟩
  · intro hbeyond
    refine apply_of_onWords?_none hzero (Option.eq_none_iff_forall_ne_some.mpr fun w hw ↦ ?_)
    exact hbeyond (hwords.mp hw ▸ holds_toInt w)

/-- What the exact result of an operator is defined for. -/
theorem exists_exactResult? (hpow : op = .pow → 0 ≤ y.toInt) (hzero : op.divides = true → y ≠ 0) :
    ∃ n, exactResult? op x.toInt y.toInt = some n := by
  cases op with
  | add | sub | mul => exact ⟨_, rfl⟩
  | div | rem => exact ⟨_, if_neg (toInt_ne_zero (hzero rfl))⟩
  | pow => exact ⟨_, if_pos (hpow rfl)⟩

end ArithOp

/-- Floored division of words: what it has no value for, that its value is the floor of the fraction,
and that rounding a quotient down stays within a word. -/
structure Word.FloorsExactly (a b : Int64) : Prop where
  none_iff : floorDiv? a b = none ↔ b = 0 ∨ a = Int64.minValue ∧ b = -1
  floor : ∀ q, floorDiv? a b = some q → q.toInt = ⌊(a.toInt : ℚ) / b.toInt⌋
  room : b ≠ 0 → a.toInt.tmod b.toInt ≠ 0 → ∀ q, ofInt? (a.toInt.tdiv b.toInt) = some q →
    (q - 1).toInt = q.toInt - 1

theorem Word.floorsExactly (a b : Int64) : FloorsExactly a b where
  none_iff := floorDiv?_eq_none_iff
  floor _ h := (toInt_of_floorDiv? h).2.trans (fdiv_eq_floor _ _)
  room hb hround _ hq := toInt_sub_one_of_tdiv hb hround hq

/-- **Whole arithmetic is exact or becomes floating point.** Division is floored and has no value only
by zero or beyond the words; each operator but the remainder gives the exact result where a word
holds it, and a float elsewhere; and only divisions by zero give nothing. -/
theorem exact_or_promoted :
    (∀ a b : Int64, FloorsExactly a b) ∧
    (∀ (op : ArithOp) (x y : Int64), op ≠ .rem → (op = .pow → 0 ≤ y.toInt ∧ y.toInt < 2 ^ 32) →
      (op.divides = true → y ≠ 0) →
        ∃ n, exactResult? op x.toInt y.toInt = some n ∧ op.GivesOrPromotes x y n) ∧
    ∀ (op : ArithOp) (x y : Int64),
      op.apply (.int x) (.int y) = none ↔ (op = .div ∨ op = .rem) ∧ y = 0 := by
  refine ⟨floorsExactly, fun op x y hrem hpow hzero ↦ ?_, fun op x y ↦ ?_⟩
  · obtain ⟨n, hn⟩ := ArithOp.exists_exactResult? (x := x) (fun h ↦ (hpow h).1) hzero
    exact ⟨n, hn, ArithOp.givesOrPromotes hrem (fun h ↦ (hpow h).2) hzero hn⟩
  · rw [ArithOp.apply_eq_none_iff]
    cases op <;> simp [ArithOp.divides]

/-- The least square that is no word. -/
theorem exact_or_promoted_square :
    ArithOp.pow.GivesOrPromotes 3037000500 2 (3037000500 ^ 2) ∧ ¬Holds (3037000500 ^ 2) := by
  obtain ⟨n, hn, h⟩ := exact_or_promoted.2.1 .pow 3037000500 2 (by decide) (by decide) (by decide)
  obtain rfl : 3037000500 ^ 2 = n := Option.some.inj hn
  exact ⟨h, by decide⟩

/-! ### Remainders -/

/-- The remainder is a whole number, and it is the residue that belongs to the quotient. -/
def ArithOp.RemainderIsExact (x y : Int64) : Prop :=
  ∃ r : Int64, ArithOp.rem.apply (.int x) (.int y) = some (.int r) ∧
    IsResidue x.toInt y.toInt r.toInt ∧
    ∀ q : Int64, ArithOp.div.apply (.int x) (.int y) = some (.int q) →
      x.toInt = y.toInt * q.toInt + r.toInt

theorem Word.holds_fmod {x y : Int64} (hy : y ≠ 0) : Holds (x.toInt.fmod y.toInt) := by
  have hlt := natAbs_fmod_lt (toInt_ne_zero hy) x.toInt
  obtain ⟨hlow, hhigh⟩ := holds_toInt y
  unfold Holds
  omega

/-- What the remainder is computed through fits a word: the quotient, and its product with the
divisor. -/
def Word.RemainderFits (x y : Int64) : Prop :=
  Holds (x.toInt.fdiv y.toInt) ∧ Holds (y.toInt * x.toInt.fdiv y.toInt)

theorem Word.exists_floorMod?_iff {x y : Int64} (hy : y ≠ 0) :
    (∃ r, floorMod? x y = some r) ↔ RemainderFits x y := by
  constructor
  · rintro ⟨r, h⟩
    obtain ⟨q, hq, h⟩ := Option.bind_eq_some_iff.mp h
    obtain ⟨p, hp, -⟩ := Option.bind_eq_some_iff.mp h
    have hquotient := (toInt_of_floorDiv? hq).2
    have hproduct : p.toInt = y.toInt * q.toInt := ofInt?_eq_some_iff.mp hp
    rw [RemainderFits, ← hquotient, ← hproduct]
    exact ⟨holds_toInt q, holds_toInt p⟩
  · rintro ⟨hquotient, hproduct⟩
    rcases hq : floorDiv? x y with - | q
    · rcases floorDiv?_eq_none_iff.mp hq with rfl | ⟨rfl, rfl⟩
      · exact absurd rfl hy
      · exact absurd hquotient (by decide)
    · exact floorMod?_of_floorDiv? hq hproduct

/-- **A remainder is exact** where the quotient and its product with the divisor fit a word, and a
float elsewhere, although the residue always fits. -/
theorem remainder_exact_iff {x y : Int64} (hy : y ≠ 0) :
    (ArithOp.RemainderIsExact x y ↔ RemainderFits x y) ∧ Holds (x.toInt.fmod y.toInt) ∧
      (¬RemainderFits x y → ArithOp.rem.apply (.int x) (.int y) =
        some (.float (ArithOp.rem.onFloats (toFloat x) (toFloat y)))) := by
  refine ⟨⟨?_, fun h ↦ ?_⟩, holds_fmod hy, fun h ↦ ?_⟩
  · rintro ⟨r, hr, -, -⟩
    obtain ⟨_, _, ⟨⟩, ⟨⟩, hwords⟩ := Script.int_of_apply hr
    exact (exists_floorMod?_iff hy).mp ⟨r, hwords⟩
  · obtain ⟨r, hr⟩ := (exists_floorMod?_iff hy).mpr h
    have hresidue := (toInt_of_floorMod? hr).2
    refine ⟨r, ArithOp.apply_of_onWords? hr, hresidue ▸ isResidue_fmod _ _, fun q hq ↦ ?_⟩
    obtain ⟨_, _, ⟨⟩, ⟨⟩, hwords⟩ := Script.int_of_apply hq
    rw [(toInt_of_floorDiv? hwords).2, hresidue, Int.mul_fdiv_add_fmod]
  · refine ArithOp.apply_of_onWords?_none (fun _ ↦ hy)
      (Option.eq_none_iff_forall_ne_some.mpr fun r hr ↦ ?_)
    exact h ((exists_floorMod?_iff hy).mp ⟨r, hr⟩)

/-- A negative number by a positive one. -/
theorem remainder_exact_negative : (2 : Int64) ≠ 0 ∧ RemainderFits (-7) 2 ∧
    ArithOp.RemainderIsExact (-7) 2 := by
  have hfits : RemainderFits (-7) 2 := ⟨by decide, by decide⟩
  exact ⟨by decide, hfits, (remainder_exact_iff (by decide)).1.mpr hfits⟩

/-- **Residues that are not found.** The number after the least has residue 2 by 3, but three times its
quotient is below the least; and the least number by minus one has too large a quotient. -/
theorem not_remainderIsExact :
    ((3 : Int64) ≠ 0 ∧ ¬ArithOp.RemainderIsExact (-9223372036854775807) 3) ∧
      ((-1 : Int64) ≠ 0 ∧ ¬ArithOp.RemainderIsExact Int64.minValue (-1)) := by
  have hnot {x y : Int64} (h : ArithOp.rem.onWords? x y = none) : ¬ArithOp.RemainderIsExact x y := by
    rintro ⟨r, hr, -, -⟩
    obtain ⟨_, _, ⟨⟩, ⟨⟩, hwords⟩ := Script.int_of_apply hr
    cases h.symm.trans hwords
  exact ⟨⟨by decide, hnot (by decide)⟩, by decide, hnot (by decide)⟩

end StepSequencer
