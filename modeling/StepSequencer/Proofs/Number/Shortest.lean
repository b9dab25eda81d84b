import Mathlib
import StepSequencer.Proofs.Number.Digits

/-!
# Shortest digits and the number they stand for

The decimal that a number is written as lies among the reals that round to the number
(`Decimal.contains_shortest`): the search takes what it has tested, and the last grid, which it takes
as it is, is finer than the range. The digits of a number that ends in zero bits have no fraction
(`Decimal.exponent_shortest_nonneg`).

So the digits of a 32-bit float are a whole number that no word holds exactly if the float is beyond
the least word (`Decimal.fitsWord_shortest_iff`). The power of two next to the greatest word is not
among those: its shortest digits are below it.
-/

namespace StepSequencer

namespace Decimal

/-! ### Counting digits -/

theorem lt_pow_width (n : Nat) : n < 10 ^ width n := by
  fun_induction width n with
  | case1 => exact Nat.one_pos
  | case2 n hn ih =>
    rw [Nat.pow_succ]
    omega

theorem pow_width_le {n : Nat} (h : n ≠ 0) : 10 ^ width n ≤ 10 * n := by
  fun_induction width n with
  | case1 => exact absurd rfl h
  | case2 n hn ih =>
    rw [Nat.pow_succ, Nat.mul_comm]
    refine Nat.mul_le_mul_left 10 ?_
    by_cases hsmall : n / 10 = 0
    · rw [hsmall, width, dif_pos rfl]
      exact Nat.pos_of_ne_zero hn
    · exact (ih hsmall).trans (Nat.mul_div_le n 10)

theorem width_ne_zero {n : Nat} (h : n ≠ 0) : width n ≠ 0 := by
  rw [width, dif_neg h]
  exact Nat.succ_ne_zero _

/-- The power of ten of the first digit is not beyond the quotient. -/
theorem pow_magnitude_le {num den : Nat} (hnum : 0 < num) (hden : 0 < den) :
    10 ^ (magnitude num den).toNat * den ≤ num * 10 ^ (-magnitude num den).toNat := by
  rw [magnitude]
  split
  · next hle =>
    -- from one on: as many digits as the whole part has
    have hne : num / den ≠ 0 := Nat.div_ne_zero_iff.mpr ⟨hden.ne', hle⟩
    obtain ⟨k, hk⟩ := Nat.exists_eq_succ_of_ne_zero (width_ne_zero hne)
    have hpow : 10 ^ k ≤ num / den := by
      have := pow_width_le hne
      rw [hk, Nat.pow_succ] at this
      omega
    have htop : ((width (num / den) : Int) - 1).toNat = k := by omega
    have hbottom : (-((width (num / den) : Int) - 1)).toNat = 0 := by omega
    rw [htop, hbottom, Nat.pow_zero, Nat.mul_one]
    exact (Nat.mul_le_mul_right den hpow).trans (Nat.div_mul_le_self num den)
  · next hlt =>
    -- below one: the reciprocal, rounded up, is at most the power of ten
    generalize hq : (den + num - 1) / num = q
    have hround : den ≤ num * q := by
      have := Nat.lt_mul_div_succ (den + num - 1) hnum
      rw [hq, Nat.mul_add, Nat.mul_one] at this
      omega
    have hpow : q ≤ 10 ^ width (q - 1) := by
      have := lt_pow_width (q - 1)
      omega
    have htop : (-(width (q - 1) : Int)).toNat = 0 := by omega
    have hbottom : (- -(width (q - 1) : Int)).toNat = width (q - 1) := by omega
    rw [htop, hbottom, Nat.pow_zero, Nat.one_mul]
    exact hround.trans (Nat.mul_le_mul_left num hpow)

/-! ### The reals that round to a number -/

namespace Range

variable {r : Range} {tie : Tie} {e : Int} {d : Decimal}

theorem contains_of_lt (hlow : r.low * 10 ^ (-d.exponent).toNat < d.digits * 10 ^ d.exponent.toNat * r.den)
    (hhigh : d.digits * 10 ^ d.exponent.toNat * r.den < r.high * 10 ^ (-d.exponent).toNat) :
    r.contains d = true := by
  rw [contains]
  split
  · rw [decide_eq_true hlow.le, decide_eq_true hhigh.le, Bool.and_self]
  · rw [decide_eq_true hlow, decide_eq_true hhigh, Bool.and_self]

theorem le_of_contains (h : r.contains d = true) :
    r.low * 10 ^ (-d.exponent).toNat ≤ d.digits * 10 ^ d.exponent.toNat * r.den ∧
      d.digits * 10 ^ d.exponent.toNat * r.den ≤ r.high * 10 ^ (-d.exponent).toNat := by
  rw [contains] at h
  split at h
  · rw [Bool.and_eq_true, decide_eq_true_eq, decide_eq_true_eq] at h
    exact h
  · rw [Bool.and_eq_true, decide_eq_true_eq, decide_eq_true_eq] at h
    exact ⟨h.1.le, h.2.le⟩

/-- A zero at the end of the digits counts for one in the exponent. -/
theorem contains_mul_ten (r : Range) (k : Nat) (e : Int) :
    r.contains ⟨10 * k, e⟩ = r.contains ⟨k, e + 1⟩ := by
  rcases Int.lt_or_le e 0 with hneg | hnonneg
  · obtain ⟨n, hn⟩ : ∃ n : Nat, (-e).toNat = n + 1 := ⟨(-e).toNat - 1, by omega⟩
    have hnext : (-(e + 1)).toNat = n := by omega
    have hzero : e.toNat = 0 ∧ (e + 1).toNat = 0 := by omega
    have hscale (low : Nat) : low * 10 ^ (n + 1) = 10 * (low * 10 ^ n) := by
      rw [Nat.pow_succ]
      ring
    have hdigits : 10 * k * 10 ^ 0 * r.den = 10 * (k * 10 ^ 0 * r.den) := by ring
    simp only [contains, hn, hnext, hzero.1, hzero.2, hscale, hdigits,
      Nat.mul_le_mul_left_iff (show 0 < 10 by decide), Nat.mul_lt_mul_left (show 0 < 10 by decide)]
  · obtain ⟨n, rfl⟩ := Int.eq_ofNat_of_zero_le hnonneg
    have hnext : ((n : Int) + 1).toNat = n + 1 := by omega
    have hzero : (-(n : Int)).toNat = 0 ∧ (-((n : Int) + 1)).toNat = 0 := by omega
    have hdigits : 10 * k * 10 ^ n = k * 10 ^ (n + 1) := by
      rw [Nat.pow_succ]
      ring
    simp only [contains, Int.toNat_natCast, hnext, hzero.1, hzero.2, hdigits]

theorem contains_normalize (r : Range) (d : Decimal) : r.contains d.normalize = r.contains d := by
  fun_induction normalize d with
  | case1 => rfl
  | case2 d hne hzero ih =>
    have hten : 10 * (d.digits / 10) = d.digits := by omega
    rw [ih, ← contains_mul_ten, hten]
  | case3 => rfl

/-- What is taken from a grid lies in the range. -/
theorem of_candidate? (h : r.candidate? tie e = some d) : r.contains d = true ∧ d.exponent = e := by
  rw [candidate?] at h
  dsimp only at h
  split at h
  · next hbelow habove =>
    rw [Bool.and_eq_true] at hbelow
    obtain rfl := Option.some.inj h
    split
    · exact ⟨hbelow.1, rfl⟩
    · exact ⟨habove, rfl⟩
  · next hbelow _ =>
    rw [Bool.and_eq_true] at hbelow
    obtain rfl := Option.some.inj h
    exact ⟨hbelow.1, rfl⟩
  · next _ habove =>
    obtain rfl := Option.some.inj h
    exact ⟨habove, rfl⟩
  · cases h

/-- The multiple of a power of ten at the value or next below it. -/
def floor (r : Range) (e : Int) : Decimal :=
  ⟨r.value * 10 ^ (-e).toNat / (r.den * 10 ^ e.toNat), e⟩

/-- What the search finds lies in the range, if the multiple does at which it gives up. -/
theorem contains_search {fuel : Nat} (h : r.contains (r.floor (e - fuel)) = true) :
    r.contains (r.search tie e fuel) = true := by
  induction fuel generalizing e with
  | zero => exact (Int.sub_zero e) ▸ h
  | succ fuel ih =>
    rw [search]
    split
    · next d hd => exact (of_candidate? hd).1
    · refine ih ?_
      rwa [show e - 1 - (fuel : Int) = e - (fuel + 1 : Nat) by omega]

/-- The range of a positive number is wider than the last of the digits that are tried. -/
structure IsWide (r : Range) : Prop where
  den_pos : 0 < r.den
  value_pos : 0 < r.value
  value_lt : r.value < r.high
  wide : r.value ≤ 10 ^ 18 * (r.value - r.low)

/-- The last grid is finer than the range. -/
theorem IsWide.contains_floor (h : r.IsWide) :
    r.contains (r.floor (magnitude r.value r.den - 18)) = true := by
  obtain ⟨hden, hpos, hhigh, hwide⟩ := h
  have hmagnitude := pow_magnitude_le hpos hden
  generalize magnitude r.value r.den = p at hmagnitude ⊢
  -- the step of the grid, as the powers of ten on both sides of the comparison
  generalize hup : 10 ^ (p - 18).toNat = up
  generalize hdown : 10 ^ (-(p - 18)).toNat = down
  have hdown_pos : 0 < down := hdown ▸ Nat.pow_pos (by decide)
  have hpowers : 10 ^ 18 * up * 10 ^ (-p).toNat = 10 ^ p.toNat * down := by
    rw [← hup, ← hdown, ← Nat.pow_add, ← Nat.pow_add, ← Nat.pow_add]
    congr 1
    omega
  have hstep : 10 ^ 18 * (r.den * up) ≤ r.value * down := by
    refine Nat.le_of_mul_le_mul_right ?_ (show 0 < 10 ^ (-p).toNat from Nat.pow_pos (by decide))
    calc 10 ^ 18 * (r.den * up) * 10 ^ (-p).toNat
        = 10 ^ 18 * up * 10 ^ (-p).toNat * r.den := by ring
      _ = 10 ^ p.toNat * r.den * down := by rw [hpowers]; ring
      _ ≤ r.value * 10 ^ (-p).toNat * down := Nat.mul_le_mul_right down hmagnitude
      _ = r.value * down * 10 ^ (-p).toNat := by ring
  have hroom : r.den * up ≤ (r.value - r.low) * down := by
    refine Nat.le_of_mul_le_mul_left ?_ (show 0 < 10 ^ 18 by decide)
    calc 10 ^ 18 * (r.den * up) ≤ r.value * down := hstep
      _ ≤ 10 ^ 18 * (r.value - r.low) * down := Nat.mul_le_mul_right down hwide
      _ = 10 ^ 18 * ((r.value - r.low) * down) := by ring
  have hgrid : 0 < r.den * up := Nat.mul_pos hden (hup ▸ Nat.pow_pos (by decide))
  have hbelow := Nat.div_mul_le_self (r.value * down) (r.den * up)
  have habove := Nat.lt_mul_div_succ (r.value * down) hgrid
  refine contains_of_lt ?_ ?_ <;> simp only [floor, hup, hdown]
  · have hlow : r.low * down + (r.value - r.low) * down = r.value * down := by
      rw [← Nat.add_mul, Nat.add_sub_cancel' (by omega)]
    rw [Nat.mul_add, Nat.mul_one] at habove
    have hcomm : r.value * down / (r.den * up) * up * r.den =
        r.den * up * (r.value * down / (r.den * up)) := by ring
    omega
  · have hcomm : r.value * down / (r.den * up) * up * r.den =
        r.value * down / (r.den * up) * (r.den * up) := by ring
    rw [hcomm]
    exact hbelow.trans_lt (Nat.mul_lt_mul_of_pos_right hhigh hdown_pos)

/-- A mantissa of at most seventeen digits leaves the range wide. -/
theorem isWide_of {format : BinaryFormat} {m : Nat} (hpos : 0 < m) (hm : 4 * m ≤ 10 ^ 18) (e : Int) :
    (Range.of format m e).IsWide := by
  rw [Range.of]
  generalize hscale : 2 ^ (e - 2).toNat = scale
  have hscale_pos : 0 < scale := hscale ▸ Nat.pow_pos (by decide)
  refine ⟨Nat.pow_pos (by decide), Nat.mul_pos (by omega) hscale_pos, ?_, ?_⟩
  · exact Nat.mul_lt_mul_of_pos_right (by omega) hscale_pos
  · dsimp only
    rw [← Nat.sub_mul, ← Nat.mul_assoc]
    refine Nat.mul_le_mul_right scale ?_
    split <;> omega

end Range

variable {format : BinaryFormat} {tie : Tie} {m : Nat} {e : Int}

/-- **The shortest decimal** lies among the reals that round to the number. -/
theorem contains_shortest (hpos : 0 < m) (hm : 4 * m ≤ 10 ^ 18) :
    (Range.of format m e).contains (shortest format tie m e) = true := by
  rw [shortest, if_neg hpos.ne', Range.contains_normalize]
  exact Range.contains_search (Range.isWide_of hpos hm e).contains_floor

/-! ### Whole numbers -/

theorem exponent_normalize (d : Decimal) : d.exponent ≤ d.normalize.exponent := by
  fun_induction normalize d with
  | case1 => exact Int.le_refl _
  | case2 d hne hzero ih => exact (Int.le_add_one (Int.le_refl d.exponent)).trans ih
  | case3 => exact Int.le_refl _

/-- A whole value is a candidate of the grid of whole numbers. -/
theorem Range.candidate?_zero {r : Range} (hden : r.den = 1) (hpos : 0 < r.value)
    (hlow : r.low < r.value) (hhigh : r.value < r.high) : ∃ d, r.candidate? tie 0 = some d := by
  have hself : (r.contains ⟨r.value, 0⟩ && r.value != 0) = true := by
    rw [Range.contains_of_lt, Bool.true_and, bne_iff_ne]
    · exact hpos.ne'
    · simpa [hden] using hlow
    · simpa [hden] using hhigh
  rw [Range.candidate?]
  simp only [hden, Int.neg_zero, Int.toNat_zero, Nat.pow_zero, Nat.mul_one, Nat.div_one, hself]
  split
  · exact ⟨_, rfl⟩
  · exact ⟨_, rfl⟩
  · next h _ => cases h
  · next h _ => cases h

/-- A search that begins at whole numbers ends at one. -/
theorem Range.exponent_search_nonneg {r : Range} (hcandidate : ∃ d, r.candidate? tie 0 = some d)
    {fuel : Nat} {e : Int} (he : 0 ≤ e) : 0 ≤ (r.search tie e fuel).exponent := by
  induction fuel generalizing e with
  | zero => exact he
  | succ fuel ih =>
    rw [search]
    split
    · next d hd => exact (of_candidate? hd).2 ▸ he
    · next hnone =>
      refine ih ?_
      by_contra hneg
      obtain rfl : e = 0 := by omega
      obtain ⟨d, hd⟩ := hcandidate
      cases hd.symm.trans hnone

theorem magnitude_nonneg {num den : Nat} (hden : 0 < den) (h : den ≤ num) : 0 ≤ magnitude num den := by
  have hne : num / den ≠ 0 := Nat.div_ne_zero_iff.mpr ⟨hden.ne', h⟩
  have hwidth := width_ne_zero hne
  rw [magnitude, if_pos h]
  omega

/-- **The shortest digits of a whole number** have no fraction, if the number ends in two zero
bits. -/
theorem exponent_shortest_nonneg (hpos : 0 < m) (hm : 4 * m ≤ 10 ^ 18) (he : 2 ≤ e) :
    0 ≤ (shortest format tie m e).exponent := by
  have hwide : (Range.of format m e).IsWide := Range.isWide_of hpos hm e
  have hden : (Range.of format m e).den = 1 := by
    show 2 ^ (2 - e).toNat = 1
    rw [show (2 - e).toNat = 0 by omega]
    rfl
  have hlow : (Range.of format m e).low < (Range.of format m e).value := by
    have := hwide.wide
    have := hwide.value_pos
    omega
  have hcandidate : ∃ d, (Range.of format m e).candidate? tie 0 = some d :=
    Range.candidate?_zero hden hwide.value_pos hlow hwide.value_lt
  have hmagnitude := magnitude_nonneg hwide.den_pos (hden.trans_le hwide.value_pos)
  rw [shortest, if_neg hpos.ne']
  exact (Range.exponent_search_nonneg hcandidate hmagnitude).trans (exponent_normalize _)

/-! ### Digits and words -/

/-- The decimal has a fraction, or it is a whole number that a word holds. -/
def FitsWord (d : Decimal) : Prop := 0 ≤ d.exponent → d.digits * 10 ^ d.exponent.toNat < 2 ^ 63

/-- The digits of the power of two next to the greatest word. -/
theorem shortest_two_pow_63 : shortest .single .up (2 ^ 23) 40 = ⟨9223372, 12⟩ := by decide +kernel

end Decimal

/-- The mantissa of a number of a format has the width of the format, unless the number is one of
the smallest. -/
theorem BinaryFormat.of_decode {format : BinaryFormat} {bits m : Nat} {negative : Bool} {e : Int}
    (h : format.decode bits = .finite negative m e) :
    m < 2 ^ (format.fractionBits + 1) ∧
      (m < 2 ^ format.fractionBits → e = format.leastExponent) := by
  have hfraction : bits % 2 ^ format.fractionBits < 2 ^ format.fractionBits :=
    Nat.mod_lt _ (Nat.two_pow_pos _)
  have hdouble : 2 ^ (format.fractionBits + 1) = 2 * 2 ^ format.fractionBits := Nat.pow_succ'
  rw [decode] at h
  split at h
  · split at h <;> cases h
  · split at h
    · cases h
      exact ⟨by omega, fun _ ↦ rfl⟩
    · cases h
      exact ⟨by omega, fun hsmall ↦ by omega⟩

/-- The number is not finite, or its magnitude is at most that of the least word. -/
def Binary.FitsWord : Binary → Prop
  | .finite _ mantissa exponent => mantissa * 2 ^ exponent.toNat ≤ 2 ^ 63 * 2 ^ (-exponent).toNat
  | _ => True

instance : (b : Binary) → Decidable b.FitsWord
  | .nan | .infinite _ => inferInstanceAs (Decidable True)
  | .finite .. => inferInstanceAs (Decidable (_ ≤ _))

namespace Decimal

variable {m bits : Nat} {e : Int} {negative : Bool}

/-- The whole number that the digits of a number are, between the ends of the range. -/
theorem whole_shortest {format : BinaryFormat} {tie : Tie} (hpos : 0 < m) (hm : 4 * m ≤ 10 ^ 18)
    (hwhole : 0 ≤ (shortest format tie m e).exponent) :
    let d := shortest format tie m e
    (4 * m - 2) * 2 ^ (e - 2).toNat ≤ d.digits * 10 ^ d.exponent.toNat * 2 ^ (2 - e).toNat ∧
      d.digits * 10 ^ d.exponent.toNat * 2 ^ (2 - e).toNat ≤ (4 * m + 2) * 2 ^ (e - 2).toNat := by
  obtain ⟨hlow, hhigh⟩ := Range.le_of_contains (contains_shortest (e := e) hpos hm)
  rw [show (-(shortest format tie m e).exponent).toNat = 0 by omega, Nat.pow_zero, Nat.mul_one]
    at hlow hhigh
  refine ⟨le_trans ?_ hlow, hhigh⟩
  rw [Range.of]
  refine Nat.mul_le_mul_right _ ?_
  split <;> omega

theorem two_pow_63_eq {k : Nat} (hk : k < 62) : 2 ^ 63 = 4 * 2 ^ (61 - k) * 2 ^ k := by
  rw [Nat.mul_assoc, ← Nat.pow_add, Nat.sub_add_cancel (by omega)]
  rfl

theorem le_two_pow_63_iff {k : Nat} (hk : k < 62) : m * 2 ^ (k + 2) ≤ 2 ^ 63 ↔ m ≤ 2 ^ (61 - k) := by
  have hsplit : 2 ^ 63 = 2 ^ (61 - k) * 2 ^ (k + 2) := by
    rw [← Nat.pow_add]
    congr 1
    omega
  rw [hsplit, Nat.mul_le_mul_right_iff (Nat.two_pow_pos _)]

/-- A 32-bit float beyond the least word has a whole number for its digits, and no word holds it. -/
theorem FitsWord.bounded (h : BinaryFormat.single.decode bits = .finite negative m e)
    (hfits : (shortest .single .up m e).FitsWord) : (Binary.finite negative m e).FitsWord := by
  have hm : m < 2 ^ 24 := (BinaryFormat.of_decode h).1
  by_contra hlarge
  replace hlarge : 2 ^ 63 * 2 ^ (-e).toNat < m * 2 ^ e.toNat := Nat.lt_of_not_le hlarge
  have hpos : 0 < m := Nat.pos_of_mul_pos_right (Nat.zero_lt_of_lt hlarge)
  -- the exponent is so large that the number is whole
  have hexponent : 40 ≤ e := by
    by_contra hsmall
    have hup : 2 ^ e.toNat ≤ 2 ^ 39 := Nat.pow_le_pow_right (by decide) (by omega)
    have hdown : 1 ≤ 2 ^ (-e).toNat := Nat.one_le_two_pow
    have := Nat.mul_le_mul hm.le hup
    omega
  obtain ⟨k, rfl⟩ : ∃ k : Nat, e = k + 2 := ⟨(e - 2).toNat, by omega⟩
  have hwhole : 0 ≤ (shortest .single .up m (k + 2)).exponent :=
    exponent_shortest_nonneg hpos (by omega) (by omega)
  obtain ⟨hlow, -⟩ := whole_shortest hpos (by omega) hwhole
  have hvalue := hfits hwhole
  rw [show ((k : Int) + 2 - 2).toNat = k by omega, show (2 - ((k : Int) + 2)).toNat = 0 by omega] at hlow
  rw [show (-((k : Int) + 2)).toNat = 0 by omega, show ((k : Int) + 2).toNat = k + 2 by omega,
    Nat.pow_zero, Nat.mul_one] at hlarge
  rcases Nat.lt_or_ge k 62 with hk | hk
  · have hmantissa := Nat.lt_of_not_le (mt (le_two_pow_63_iff hk).mpr (Nat.not_le_of_lt hlarge))
    have hvalue' := Nat.mul_le_mul_right (2 ^ k) (show 4 * 2 ^ (61 - k) ≤ 4 * m - 2 by omega)
    rw [← two_pow_63_eq hk] at hvalue'
    omega
  · have hpow : 2 ^ 62 ≤ 2 ^ k := Nat.pow_le_pow_right (by decide) hk
    have := Nat.mul_le_mul (show 2 ≤ 4 * m - 2 by omega) hpow
    omega

/-- A 32-bit float up to the least word has a fraction, or its digits are a number that a word
holds. -/
theorem fitsWord_of_bounded (h : BinaryFormat.single.decode bits = .finite negative m e)
    (hbounded : (Binary.finite negative m e).FitsWord) : (shortest .single .up m e).FitsWord := by
  obtain ⟨hm, hnormal⟩ := BinaryFormat.of_decode h
  replace hm : m < 2 ^ 24 := hm
  replace hnormal : m < 2 ^ 23 → e = -149 := hnormal
  replace hbounded : m * 2 ^ e.toNat ≤ 2 ^ 63 * 2 ^ (-e).toNat := hbounded
  rcases Nat.eq_zero_or_pos m with rfl | hpos
  · exact fun _ ↦ (by decide : 0 * 10 ^ 0 < 2 ^ 63)
  intro hwhole
  obtain ⟨-, hhigh⟩ := whole_shortest hpos (by omega) hwhole
  -- below an exponent of two the mantissa alone keeps the number small
  rcases Int.lt_or_le e 2 with hsmall | hlarge
  · rw [show (e - 2).toNat = 0 by omega, Nat.pow_zero, Nat.mul_one] at hhigh
    have := Nat.le_mul_of_pos_right
      ((shortest .single .up m e).digits * 10 ^ (shortest .single .up m e).exponent.toNat)
      (Nat.two_pow_pos (2 - e).toNat)
    omega
  obtain ⟨k, rfl⟩ : ∃ k : Nat, e = k + 2 := ⟨(e - 2).toNat, by omega⟩
  rw [show ((k : Int) + 2 - 2).toNat = k by omega, show (2 - ((k : Int) + 2)).toNat = 0 by omega,
    Nat.pow_zero, Nat.mul_one] at hhigh
  rw [show (-((k : Int) + 2)).toNat = 0 by omega, show ((k : Int) + 2).toNat = k + 2 by omega,
    Nat.pow_zero, Nat.mul_one] at hbounded
  have hk : k < 62 := by
    by_contra hk
    have hpow : 2 ^ 64 ≤ 2 ^ (k + 2) := Nat.pow_le_pow_right (by decide) (by omega)
    have := Nat.mul_le_mul (show 1 ≤ m from hpos) hpow
    omega
  rcases ((le_two_pow_63_iff hk).mp hbounded).lt_or_eq with hlt | heq
  · -- half a unit of the last place more is still below the power of two
    have hvalue := Nat.mul_lt_mul_of_pos_right (show 4 * m + 2 < 4 * 2 ^ (61 - k) by omega)
      (Nat.two_pow_pos k)
    rw [← two_pow_63_eq hk] at hvalue
    exact hhigh.trans_lt hvalue
  · -- the power of two next to the greatest word, in its only spelling
    obtain rfl : k = 38 := by
      have hwide : 2 ^ 23 ≤ m := Nat.le_of_not_lt fun hsmall ↦ by have := hnormal hsmall; omega
      have hup := (Nat.pow_lt_pow_iff_right (show 1 < 2 by decide)).mp (heq ▸ hm)
      have hdown := (Nat.pow_le_pow_iff_right (show 1 < 2 by decide)).mp (heq ▸ hwide)
      omega
    obtain rfl : m = 2 ^ 23 := heq
    rw [show ((38 : Nat) : Int) + 2 = 40 from rfl, shortest_two_pow_63]
    decide

/-- **The digits of a 32-bit float** are a whole number that no word holds exactly if the float is
beyond the least word. -/
theorem fitsWord_shortest_iff (h : BinaryFormat.single.decode bits = .finite negative m e) :
    (shortest .single .up m e).FitsWord ↔ (Binary.finite negative m e).FitsWord :=
  ⟨FitsWord.bounded h, fitsWord_of_bounded h⟩

end Decimal

end StepSequencer
