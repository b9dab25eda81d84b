import Mathlib
import StepSequencer.Number.Word
import StepSequencer.Number.Layout

/-!
# Floats as mantissa and exponent

A whole number below `2 ^ 53` is exactly a float: it is shifted until its mantissa is as wide as
mantissas are (`unpack_toFloat`). So it comes back out of the float as the same whole number
(`toUInt32_toFloat`) and is not below one unless it is zero (`toFloat_lt_one`).

A positive 32-bit float has no sign (`Binary.not_isNegative_of_pos`), and a finite float is a number
with a mantissa (`Binary.exists_ofSingle`, `Binary.exists_ofDouble`).
-/

namespace StepSequencer.Word

open Float.Model Float.Model.UnpackedFloat

/-! ### Shifted mantissas -/

theorem log2_shiftLeft {n : Nat} (hn : 0 < n) (k : Nat) : (n <<< k).log2 = n.log2 + k := by
  have hne : n ≠ 0 := Nat.pos_iff_ne_zero.mp hn
  have hshifted : n <<< k ≠ 0 := by
    rw [Nat.shiftLeft_eq]
    exact Nat.mul_ne_zero hne (Nat.pos_iff_ne_zero.mp (Nat.two_pow_pos k))
  obtain ⟨hlow, hhigh⟩ := (Nat.log2_eq_iff hne).mp rfl
  rw [Nat.log2_eq_iff hshifted, Nat.shiftLeft_eq, Nat.add_right_comm, Nat.pow_add, Nat.pow_add]
  exact ⟨Nat.mul_le_mul_right _ hlow, (Nat.mul_lt_mul_right (Nat.two_pow_pos k)).mpr hhigh⟩

/-- A mantissa of full width needs no shift to the right. -/
theorem shiftToTargetExponent_of_log2 {m : Nat} {e : Int} (hm : m.log2 = 52) (he : -1074 ≤ e) :
    shiftToTargetExponent .binary64 m e .exact = (⟨m, false, false⟩, e) := by
  have htarget : Format.targetExponent .binary64 (totalExponent m e) = e := by
    rw [Format.targetExponent, totalExponent, hm]
    show max (((52 : Nat) : Int) + 1 + e - (1 + 52 : Nat)) (3 - 2 ^ 10 - (1 + 52 : Nat)) = e
    omega
  rw [shiftToTargetExponent, htarget, shiftToExponent, Int.sub_self]
  show ((⟨m, false, false⟩ : ExtendedMantissa), e + 0) = _
  rw [Int.add_zero]

/-- A whole number rounds to itself, shifted to full width. -/
theorem round_whole {n : Nat} (hn : 0 < n) (h : n < 2 ^ 53) : ∃ hpos,
    UnpackedFloat.round .binary64 .positive n 0 =
      .finite .positive (n <<< (52 - n.log2)) (n.log2 - 52) hpos := by
  have hlog : n.log2 < 53 := (Nat.log2_lt (Nat.pos_iff_ne_zero.mp hn)).mpr h
  have hwide : (n <<< (52 - n.log2)).log2 = 52 := by
    rw [log2_shiftLeft hn]
    omega
  -- at full width nothing is shifted out, neither before nor after rounding
  have hstay := shiftToTargetExponent_of_log2 hwide (e := n.log2 - 52) (by omega)
  have htarget : Format.targetExponent .binary64 (totalExponent n 0) = n.log2 - 52 := by
    rw [Format.targetExponent, totalExponent]
    show max ((n.log2 : Int) + 1 + 0 - (1 + 52 : Nat)) (3 - 2 ^ 10 - (1 + 52 : Nat)) = _
    omega
  have hdecrease : decreaseExponent n 0 (n.log2 - 52) =
      (n <<< (52 - n.log2), (n.log2 : Int) - 52) := by
    have hamount : ((0 : Int) - (n.log2 - 52)).toNat = 52 - n.log2 := by omega
    simp only [decreaseExponent, hamount, Prod.mk.injEq, true_and]
    omega
  have hne : n <<< (52 - n.log2) ≠ 0 := by
    rintro heq
    rw [heq] at hwide
    cases hwide
  refine ⟨Nat.pos_of_ne_zero hne, ?_⟩
  rw [UnpackedFloat.round, htarget, hdecrease]
  dsimp only
  rw [roundWithAccuracy, hstay]
  dsimp only
  rw [show ExtendedMantissa.roundedMantissa ⟨n <<< (52 - n.log2), false, false⟩ =
    n <<< (52 - n.log2) from rfl, hstay]
  exact dif_neg hne

/-! ### Packing -/

theorem ofBitVec_unpackSign {sign : Sign} {exponent : BitVec 11} {mantissa : BitVec 52} :
    Sign.ofBitVec (unpackSign (packComponents .binary64 sign exponent mantissa)) = sign := by
  rw [unpackSign, packComponents, BitVec.extractLsb,
    BitVec.extractLsb'_append_eq_of_le (by decide), BitVec.extractLsb'_append_eq_of_le (by decide)]
  cases sign <;> rfl

/-- A mantissa of full width is unpacked as it was packed. -/
theorem unpack_pack {sign : Sign} {m : Nat} {e : Int} {hpos : 0 < m} (hm : m.log2 = 52)
    (hlow : -1074 ≤ e) (hhigh : e < 972) :
    UnpackedFloat.unpack .binary64 (UnpackedFloat.pack .binary64 (.finite sign m e hpos)) =
      .finite sign m e hpos := by
  -- the biased exponent, which is neither that of zero nor that of infinity
  obtain ⟨k, hk⟩ : ∃ k : Nat, e + 1075 = k := Int.eq_ofNat_of_zero_le (by omega)
  obtain ⟨hwide, hnarrow⟩ := (Nat.log2_eq_iff (Nat.pos_iff_ne_zero.mp hpos)).mp hm
  have hpack : UnpackedFloat.pack .binary64 (.finite sign m e hpos) =
      packComponents .binary64 sign (BitVec.ofNat 11 k) (BitVec.ofNat 52 m) := by
    have hbiased : (e + (Format.exponentBias .binary64 : Nat) + (52 : Nat)).toNat = k := by
      show (e + (1023 : Nat) + (52 : Nat)).toNat = k
      omega
    rw [UnpackedFloat.pack]
    simp only [hbiased, hm]
    rw [if_neg (by omega)]
    exact if_pos rfl
  have hk' : (BitVec.ofNat 11 k).toNat = k := Nat.mod_eq_of_lt (by omega)
  have htop : BitVec.ofNat 11 k ≠ -1#11 := by
    intro h
    have hval := congrArg BitVec.toNat h
    rw [hk', show (-1#11).toNat = 2047 from rfl] at hval
    omega
  have hzero : BitVec.ofNat 11 k ≠ 0#11 := by
    intro h
    have hval := congrArg BitVec.toNat h
    rw [hk', show (0#11).toNat = 0 from rfl] at hval
    omega
  -- the leading bit is left out of the packed mantissa and put back
  have hmantissa : (1#1 ++ BitVec.ofNat 52 m).toNat = m := by
    rw [BitVec.toNat_append, ← Nat.shiftLeft_add_eq_or_of_lt (BitVec.ofNat 52 m).isLt,
      BitVec.toNat_ofNat, BitVec.toNat_ofNat, Nat.shiftLeft_eq]
    omega
  rw [hpack, UnpackedFloat.unpack]
  simp only [unpackExponent_packComponents, unpackMantissa_packComponents, ofBitVec_unpackSign]
  rw [if_neg htop, if_neg hzero]
  congr 1
  rw [hk']
  show (k : Int) - ((1023 : Nat) + (52 : Nat)) = e
  omega

/-! ### Whole numbers -/

theorem unpack_toFloat {n : Nat} (hn : 0 < n) (h : n < 2 ^ 53) : ∃ hpos,
    (UInt64.ofNat n).toFloat.toModel.unpack =
      .finite .positive (n <<< (52 - n.log2)) (n.log2 - 52) hpos := by
  have hlog : n.log2 < 53 := (Nat.log2_lt (Nat.pos_iff_ne_zero.mp hn)).mpr h
  have hval : (UInt64.ofNat n).toNat = n := Nat.mod_eq_of_lt (by omega)
  obtain ⟨hpos, hround⟩ := round_whole hn h
  have hnormal : UnpackedFloat.ofUInt64 .binary64 (UInt64.ofNat n) =
      UnpackedFloat.round .binary64 .positive n 0 := by
    have hcompare : compare (n : Int) 0 = .gt := Int.compare_eq_gt.mpr (by omega)
    rw [UnpackedFloat.ofUInt64, hval, UnpackedFloat.ofNat, UnpackedFloat.ofInt,
      UnpackedFloat.normalize, hcompare]
    rfl
  refine ⟨hpos, ?_⟩
  show UnpackedFloat.unpack .binary64 (UnpackedFloat.pack .binary64
    (UnpackedFloat.ofUInt64 .binary64 (UInt64.ofNat n))) = _
  rw [hnormal, hround]
  refine unpack_pack ?_ (by omega) (by omega)
  rw [log2_shiftLeft hn]
  omega

theorem mantissa_shiftRight (m : ExtendedMantissa) (k : Nat) :
    (m >>> k).mantissa = m.mantissa >>> k := by
  induction k with
  | zero => rfl
  | succ k ih =>
    show (m >>> k).mantissa / 2 = m.mantissa >>> (k + 1)
    rw [ih, Nat.shiftRight_succ]

theorem roundToInt_shiftLeft (n k : Nat) : roundToInt .positive (n <<< k) (-k) = n := by
  have hdecrease : decreaseExponent (n <<< k) (-k) 0 = (n <<< k, -(k : Int)) := by
    have hamount : (-(k : Int) - 0).toNat = 0 := by omega
    simp only [decreaseExponent, hamount]
    rw [Nat.shiftLeft_zero]
    exact congrArg _ (by omega)
  have hamount : ((0 : Int) - -(k : Int)).toNat = k := by omega
  rw [roundToInt, hdecrease]
  dsimp only
  simp only [shiftToExponent, hamount]
  show (((⟨n <<< k, false, false⟩ : ExtendedMantissa) >>> k).mantissa : Int) = n
  rw [mantissa_shiftRight, Nat.shiftLeft_shiftRight]

theorem toFloat_ofNat {n : Nat} (h : n < 2 ^ 32) :
    toFloat (Int64.ofNat n) = (UInt64.ofNat n).toFloat := by
  have hval : (Int64.ofNat n).toInt = n := Int64.toInt_ofNat_of_lt (by omega)
  rw [toFloat, hval]
  exact if_neg (by omega)

/-- **A whole number** comes back out of its float. -/
theorem toUInt32_toFloat {n : Nat} (hn : 0 < n) (h : n < 2 ^ 32) :
    (toFloat (Int64.ofNat n)).toUInt32 = UInt32.ofNat n := by
  have hlog : n.log2 < 32 := (Nat.log2_lt (Nat.pos_iff_ne_zero.mp hn)).mpr h
  obtain ⟨hpos, hunpack⟩ := unpack_toFloat hn (by omega)
  have hexp : (n.log2 : Int) - 52 = -(52 - n.log2 : Nat) := by omega
  have hint : UnpackedFloat.toInt 0 ((UInt32.size : Int) - 1) (UInt64.ofNat n).toFloat.toModel.unpack =
      n := by
    rw [hunpack, UnpackedFloat.toInt, hexp, roundToInt_shiftLeft]
  rw [toFloat_ofNat h]
  show UInt32.ofNatClamp
    (UnpackedFloat.toInt 0 ((UInt32.size : Int) - 1) (UInt64.ofNat n).toFloat.toModel.unpack).toNat = _
  rw [hint, Int.toNat_natCast, UInt32.ofNatClamp, dif_pos (show n < UInt32.size from h)]
  exact UInt32.toNat_inj.mp (Nat.mod_eq_of_lt h).symm

theorem compare_of_lt {a b : Float} (h : a < b) :
    UnpackedFloat.compare a.toModel.unpack b.toModel.unpack = some .lt := by
  have hmodel : a.toModel < b.toModel := of_decide_eq_true (show Float.lt a b = true from h)
  exact beq_iff_eq.mp (show UnpackedFloat.lt a.toModel.unpack b.toModel.unpack = true from hmodel)

/-- A positive whole number is not below one. -/
theorem not_toFloat_lt_one {n : Nat} (hn : 0 < n) (h : n < 2 ^ 32) :
    ¬toFloat (Int64.ofNat n) < 1 := by
  obtain ⟨hpos, hunpack⟩ := unpack_toFloat hn (by omega)
  have hone : (1 : Float).toModel.unpack =
      .finite .positive (1 <<< 52) (-52) (by decide) := by rfl
  intro hlt
  have hcompare := compare_of_lt hlt
  rw [toFloat_ofNat h, hunpack, hone] at hcompare
  have hthen : (compare ((n.log2 : Int) - 52) (-52)).then
      (compare (n <<< (52 - n.log2)) (1 <<< 52)) = .lt := Option.some.inj hcompare
  rcases Ordering.then_eq_lt.mp hthen with hexp | ⟨hexp, hmantissa⟩
  · rw [Int.compare_eq_lt] at hexp
    omega
  · rw [Int.compare_eq_eq] at hexp
    rw [Nat.compare_eq_lt, show n.log2 = 0 by omega, Nat.shiftLeft_eq, Nat.shiftLeft_eq] at hmantissa
    omega

end StepSequencer.Word

namespace StepSequencer

open Float.Model Float.Model.UnpackedFloat

/-! ### Signs -/

theorem compare_single_of_lt {a b : Float32} (h : a < b) :
    UnpackedFloat.compare a.toModel.unpack b.toModel.unpack = some .lt := by
  have hmodel : a.toModel < b.toModel := of_decide_eq_true (show Float32.lt a b = true from h)
  exact beq_iff_eq.mp (show UnpackedFloat.lt a.toModel.unpack b.toModel.unpack = true from hmodel)

/-- A positive float has no sign. -/
theorem sign_of_pos {v : Float32} (h : 0 < v) : v.toBits.toNat / 2 ^ 31 % 2 = 0 := by
  have hcompare := compare_single_of_lt h
  rw [show (0 : Float32).toModel.unpack = .zero .positive from rfl] at hcompare
  have hsign : Sign.ofBitVec (@unpackSign .binary32 v.toBits.toBitVec) = .positive := by
    rcases hnegative : Sign.ofBitVec (@unpackSign .binary32 v.toBits.toBitVec) with - | -
    case positive => rfl
    case negative =>
      rw [Float32.Model.unpack, UnpackedFloat.unpack] at hcompare
      simp only [show v.toModel.toBits = v.toBits from rfl, hnegative] at hcompare
      split at hcompare
      · split at hcompare <;> cases hcompare
      · split at hcompare
        · split at hcompare <;> cases hcompare
        · cases hcompare
  have hbit : @unpackSign .binary32 v.toBits.toBitVec = 0#1 := by
    rw [Sign.ofBitVec] at hsign
    split at hsign
    · assumption
    · cases hsign
  have hval := congrArg BitVec.toNat hbit
  rw [unpackSign, BitVec.toNat_cast, BitVec.extractLsb, BitVec.extractLsb'_toNat, Nat.shiftRight_eq_div_pow] at hval
  exact hval

/-- Whether the number has a minus sign. -/
def Binary.isNegative : Binary → Bool
  | .nan => false
  | .infinite negative | .finite negative _ _ => negative

theorem Binary.not_isNegative_of_pos {v : Float32} (h : 0 < v) :
    (Binary.ofSingle v).isNegative = false := by
  have hsign : ¬v.toBits.toNat / 2 ^ 31 % 2 = 1 := by
    rw [sign_of_pos h]
    decide
  have hnegative : decide (v.toBits.toNat / 2 ^ 31 % 2 = 1) = false := decide_eq_false hsign
  show (BinaryFormat.single.decode v.toBits.toNat).isNegative = false
  unfold BinaryFormat.decode
  dsimp only
  split
  · split
    · exact hnegative
    · rfl
  · split <;> exact hnegative

/-! ### Finite floats -/

/-- The exponent of a finite float is not the top one. -/
theorem exponent_of_isFinite {spec : Format} {b : BitVec spec.numBits}
    (h : (UnpackedFloat.unpack spec b).isFinite = true) :
    b.toNat / 2 ^ spec.mantissaBitsWithoutImplicit % 2 ^ spec.exponentBits ≠
      2 ^ spec.exponentBits - 1 := by
  have hexponent : unpackExponent b ≠ BitVec.allOnes spec.exponentBits := by
    intro htop
    rw [UnpackedFloat.unpack, BitVec.neg_one_eq_allOnes, if_pos htop] at h
    split at h <;> cases h
  intro hfield
  refine hexponent (BitVec.eq_of_toNat_eq ?_)
  have hwidth : spec.mantissaBitsWithoutImplicit + spec.exponentBits - 1 -
      spec.mantissaBitsWithoutImplicit + 1 = spec.exponentBits := by
    have := spec.he
    omega
  rw [unpackExponent, BitVec.toNat_cast, BitVec.extractLsb, BitVec.extractLsb'_toNat,
    Nat.shiftRight_eq_div_pow, hwidth, hfield, BitVec.toNat_allOnes]

/-- The number of a pattern whose exponent is not the top one. -/
theorem BinaryFormat.exists_decode {format : BinaryFormat} {bits : Nat}
    (h : bits / 2 ^ format.fractionBits % 2 ^ format.exponentBits ≠ format.topExponent) :
    ∃ negative mantissa exponent, format.decode bits = .finite negative mantissa exponent := by
  rw [decode, if_neg h]
  split
  · exact ⟨_, _, _, rfl⟩
  · exact ⟨_, _, _, rfl⟩

theorem Binary.exists_ofSingle {x : Float32} (h : x.isFinite = true) :
    ∃ negative mantissa exponent, Binary.ofSingle x = .finite negative mantissa exponent :=
  @BinaryFormat.exists_decode .single _ (@exponent_of_isFinite .binary32 _ h)

theorem Binary.exists_ofDouble {x : Float} (h : x.isFinite = true) :
    ∃ negative mantissa exponent, Binary.ofDouble x = .finite negative mantissa exponent :=
  @BinaryFormat.exists_decode .double _ (@exponent_of_isFinite .binary64 _ h)
theorem le_single {a b : Float32} (h : a ≤ b) :
    UnpackedFloat.le a.toModel.unpack b.toModel.unpack = true := by
  have hmodel : a.toModel ≤ b.toModel := of_decide_eq_true (show Float32.le a b = true from h)
  exact hmodel

/-- A float between zero and one is finite. -/
theorem isFinite_of_mem_unit {x : Float32} (hlow : 0 ≤ x) (hhigh : x ≤ 1) : x.isFinite = true := by
  have hlow' := le_single hlow
  have hhigh' := le_single hhigh
  rw [show (0 : Float32).toModel.unpack = .zero .positive from rfl] at hlow'
  rw [show (1 : Float32).toModel.unpack = .finite .positive (1 <<< 23) (-23) (by decide) from rfl]
    at hhigh'
  show x.toModel.unpack.isFinite = true
  cases hx : x.toModel.unpack with
  | notANumber =>
    rw [hx] at hlow'
    cases hlow'
  | infinity sign =>
    rw [hx] at hlow' hhigh'
    cases sign with
    | positive => cases hhigh'
    | negative => cases hlow'
  | zero sign => rfl
  | finite sign m e hpos => rfl

/-! ### Texts -/

namespace NumberLayout

/-- The text of digits begins with a digit. -/
theorem head?_positional (d : Decimal) :
    (positional false d).toList.head?.any Char.isDigit = true := by
  have hdigits : ∀ c cs, Nat.toDigits 10 d.digits = c :: cs → c.isDigit = true := fun c cs h ↦
    Nat.isDigit_of_mem_toDigits (b := 10) (n := d.digits) (by decide) (by decide)
      (h ▸ List.mem_cons_self ..)
  rcases hds : Nat.toDigits 10 d.digits with - | ⟨c, cs⟩
  · exact absurd hds Nat.toDigits_ne_nil
  have hc : (some c).any Char.isDigit = true := hdigits c cs hds
  rw [positional, hds]
  dsimp only
  split
  · rw [String.toList_append, String.toList_append, String.toList_ofList]
    exact hc
  · split
    · rw [String.toList_append, String.toList_append]
      rfl
    · next hlength =>
      obtain ⟨k, hk⟩ : ∃ k, (c :: cs).length - (-d.exponent).toNat = k + 1 :=
        ⟨_, (Nat.succ_pred_eq_of_pos (by omega)).symm⟩
      rw [hk, List.take_succ_cons, String.toList_append, String.toList_append, String.toList_ofList]
      exact hc

theorem plain_decimal (d : Decimal) : plain.decimal d = positional false d := by
  rw [decimal, if_neg]
  · rfl
  · simp [plain]

/-- The text of a number without a minus sign does not begin with one. -/
theorem head?_binary {format : BinaryFormat} {b : Binary} (h : b.isNegative = false) :
    (plain.binary format b).toList.head? ≠ some '-' := by
  cases b with
  | nan => exact (by decide : "NaN".toList.head? ≠ some '-')
  | infinite negative =>
    cases h
    exact (by decide : "inf".toList.head? ≠ some '-')
  | finite negative m e =>
    cases h
    have hhead := head?_positional (Decimal.shortest format .up m e)
    intro heq
    rw [binary, if_neg Bool.false_ne_true, String.empty_append, plain_decimal] at heq
    rw [show plain.tie = Tie.up from rfl] at heq
    rw [heq] at hhead
    cases hhead

/-- The text of a positive float does not begin with a minus sign. -/
theorem head?_single_of_pos {v : Float32} (h : 0 < v) :
    (plain.single v).toList.head? ≠ some '-' :=
  head?_binary (Binary.not_isNegative_of_pos h)

end NumberLayout

end StepSequencer
