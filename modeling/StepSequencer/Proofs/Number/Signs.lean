import StepSequencer.Proofs.Number.Floats

/-!
# Signs and magnitudes of 64-bit floats

The bits of a float are a sign, an exponent and a mantissa. Taking the magnitude clears the sign of a
finite float and leaves the rest (`Binary.ofDouble_abs`). A finite float with a sign is below zero, but
for the negative zero (`Float.lt_zero_or_eq`).
-/

namespace StepSequencer

open Float.Model Float.Model.UnpackedFloat

/-! ### The parts of a pattern -/

theorem toNat_packComponents (sign : Sign) (exponent : BitVec 11) (mantissa : BitVec 52) :
    (packComponents .binary64 sign exponent mantissa).toNat =
      sign.toBitVec.toNat * 2 ^ 63 + exponent.toNat * 2 ^ 52 + mantissa.toNat := by
  rw [packComponents, BitVec.toNat_append, ← Nat.shiftLeft_add_eq_or_of_lt mantissa.isLt,
    BitVec.toNat_append, ← Nat.shiftLeft_add_eq_or_of_lt exponent.isLt, Nat.shiftLeft_eq,
    Nat.shiftLeft_eq]
  omega

theorem toBitVec_ofBitVec : ∀ v : BitVec 1, (Sign.ofBitVec v).toBitVec = v := by decide

/-- A pattern is put together from its parts. -/
theorem packComponents_unpack (bits : BitVec 64) :
    packComponents .binary64 (Sign.ofBitVec (@unpackSign .binary64 bits))
      (@unpackExponent .binary64 bits) (@unpackMantissa .binary64 bits) = bits := by
  have hsign : (@unpackSign .binary64 bits).toNat = bits.toNat / 2 ^ 63 % 2 := by
    rw [unpackSign, BitVec.toNat_cast, BitVec.extractLsb, BitVec.extractLsb'_toNat,
      Nat.shiftRight_eq_div_pow]
    rfl
  have hexponent : (@unpackExponent .binary64 bits).toNat = bits.toNat / 2 ^ 52 % 2 ^ 11 := by
    rw [unpackExponent, BitVec.toNat_cast, BitVec.extractLsb, BitVec.extractLsb'_toNat,
      Nat.shiftRight_eq_div_pow]
    rfl
  have hmantissa : (@unpackMantissa .binary64 bits).toNat = bits.toNat % 2 ^ 52 := by
    rw [unpackMantissa, BitVec.toNat_cast, BitVec.extractLsb, BitVec.extractLsb'_toNat]
    rfl
  refine BitVec.eq_of_toNat_eq ?_
  rw [toNat_packComponents, toBitVec_ofBitVec, hsign, hexponent, hmantissa]
  have hlt := bits.isLt
  omega

/-- A mantissa with its leading bit. -/
theorem toNat_implicit (mantissa : BitVec 52) :
    (1#1 ++ mantissa).toNat = 2 ^ 52 + mantissa.toNat := by
  rw [BitVec.toNat_append, ← Nat.shiftLeft_add_eq_or_of_lt mantissa.isLt, Nat.shiftLeft_eq]
  rfl

variable {sign : Sign} {exponent : BitVec 11} {mantissa : BitVec 52}

/-- What the parts stand for, where the exponent is not the top one. -/
theorem unpack_packComponents (sign : Sign) (mantissa : BitVec 52) (h : exponent ≠ -1#11) :
    (exponent = 0#11 ∧ mantissa = 0#52 ∧
      UnpackedFloat.unpack .binary64 (packComponents .binary64 sign exponent mantissa) = .zero sign) ∨
    (exponent = 0#11 ∧ ∃ hpos, UnpackedFloat.unpack .binary64
      (packComponents .binary64 sign exponent mantissa) = .finite sign mantissa.toNat (-1074) hpos) ∨
    (exponent ≠ 0#11 ∧ ∃ hpos, UnpackedFloat.unpack .binary64
      (packComponents .binary64 sign exponent mantissa) =
        .finite sign (2 ^ 52 + mantissa.toNat) (exponent.toNat - 1075) hpos) := by
  rw [UnpackedFloat.unpack]
  simp only [unpackExponent_packComponents, unpackMantissa_packComponents,
    Word.ofBitVec_unpackSign]
  rw [if_neg h]
  by_cases hzero : exponent = 0#11
  · subst hzero
    rw [if_pos rfl]
    by_cases hmantissa : mantissa = 0#52
    · exact .inl ⟨rfl, hmantissa, dif_pos hmantissa⟩
    · have hpos : 0 < mantissa.toNat := Nat.pos_of_ne_zero fun hnil ↦
        hmantissa (BitVec.eq_of_toNat_eq hnil)
      exact .inr (.inl ⟨rfl, hpos, dif_neg hmantissa⟩)
  · rw [if_neg hzero]
    refine .inr (.inr ⟨hzero, by omega, ?_⟩)
    congr 1
    exact toNat_implicit mantissa

/-- The magnitude has the same exponent and mantissa, and no sign. -/
theorem pack_abs (h : exponent ≠ -1#11) :
    UnpackedFloat.pack .binary64 (UnpackedFloat.unpack .binary64
      (packComponents .binary64 sign exponent mantissa)).abs =
        packComponents .binary64 .positive exponent mantissa := by
  have hmantissa := mantissa.isLt
  rcases unpack_packComponents sign mantissa h with
    ⟨rfl, rfl, hunpack⟩ | ⟨rfl, hpos, hunpack⟩ | ⟨hne, hpos, hunpack⟩
  · rw [hunpack]
    rfl
  · -- a mantissa that is not of full width
    have hlog : mantissa.toNat.log2 < 52 := (Nat.log2_lt hpos.ne').mpr hmantissa
    have hnarrow : mantissa.toNat.log2 + 1 ≠ Format.mantissaBits .binary64 := by
      show mantissa.toNat.log2 + 1 ≠ 1 + 52
      omega
    rw [hunpack, UnpackedFloat.abs, UnpackedFloat.pack]
    dsimp only
    rw [if_neg (by decide), if_neg hnarrow, BitVec.ofNat_toNat, BitVec.setWidth_eq]
  · -- a mantissa of full width, whose exponent is biased back to what it was
    have hlog : (2 ^ 52 + mantissa.toNat).log2 = 52 := (Nat.log2_eq_iff hpos.ne').mpr (by omega)
    have hbiased : ((exponent.toNat : Int) - 1075 + (Format.exponentBias .binary64 : Nat) +
        (52 : Nat)).toNat = exponent.toNat := by
      show ((exponent.toNat : Int) - 1075 + (1023 : Nat) + (52 : Nat)).toNat = exponent.toNat
      omega
    have htop : ¬2 ^ 11 ≤ exponent.toNat + 1 := by
      intro hle
      refine h (BitVec.eq_of_toNat_eq ?_)
      have hlt := exponent.isLt
      show exponent.toNat = 2047
      omega
    have hwide : (2 ^ 52 + mantissa.toNat).log2 + 1 = Format.mantissaBits .binary64 := by
      rw [hlog]
      rfl
    rw [hunpack, UnpackedFloat.abs, UnpackedFloat.pack]
    dsimp only
    rw [hbiased, if_neg htop, if_pos hwide, BitVec.ofNat_toNat, BitVec.setWidth_eq]
    congr 1
    refine BitVec.eq_of_toNat_eq ?_
    rw [BitVec.toNat_ofNat]
    omega

/-- The number that the parts are has their sign. -/
theorem BinaryFormat.decode_packComponents (mantissa : BitVec 52) (h : exponent ≠ -1#11) :
    ∃ m e, ∀ sign : Sign,
    BinaryFormat.double.decode (packComponents .binary64 sign exponent mantissa).toNat =
      .finite (sign.toBitVec = 1#1) m e := by
  have hfields (sign : Sign) : let bits := (packComponents .binary64 sign exponent mantissa).toNat
      bits % 2 ^ 52 = mantissa.toNat ∧ bits / 2 ^ 52 % 2 ^ 11 = exponent.toNat ∧
        bits / 2 ^ 63 % 2 = sign.toBitVec.toNat := by
    have hmantissa := mantissa.isLt
    have hexponent := exponent.isLt
    have hsign := sign.toBitVec.isLt
    rw [toNat_packComponents]
    dsimp only
    omega
  have htop : exponent.toNat ≠ BinaryFormat.double.topExponent := fun heq ↦
    h (BitVec.eq_of_toNat_eq heq)
  have hsign (sign : Sign) : (sign.toBitVec.toNat = 1) ↔ sign.toBitVec = 1#1 := by
    cases sign <;> decide
  have hdecode (sign : Sign) :
      BinaryFormat.double.decode (packComponents .binary64 sign exponent mantissa).toNat =
        if exponent.toNat = 0 then
          .finite (sign.toBitVec = 1#1) mantissa.toNat BinaryFormat.double.leastExponent
        else .finite (sign.toBitVec = 1#1) (2 ^ 52 + mantissa.toNat)
          (BinaryFormat.double.leastExponent + (exponent.toNat - 1 : Nat)) := by
    obtain ⟨hfraction, hfield, hnegative⟩ := hfields sign
    show (if _ then _ else _ : Binary) = _
    simp only [BinaryFormat.double, hfraction, hfield, hnegative, hsign]
    exact if_neg htop
  by_cases hzero : exponent.toNat = 0
  · exact ⟨_, _, fun sign ↦ (hdecode sign).trans (if_pos hzero)⟩
  · exact ⟨_, _, fun sign ↦ (hdecode sign).trans (if_neg hzero)⟩

/-! ### Finite floats -/

/-- The parts of a finite float. -/
theorem Float.exists_components {x : Float} (h : x.isFinite = true) :
    ∃ sign, ∃ exponent : BitVec 11, ∃ mantissa : BitVec 52, exponent ≠ -1#11 ∧
      x.toBits.toBitVec = packComponents .binary64 sign exponent mantissa := by
  refine ⟨_, _, _, ?_, (packComponents_unpack x.toBits.toBitVec).symm⟩
  intro htop
  have h : (UnpackedFloat.unpack .binary64 x.toBits.toBitVec).isFinite = true := h
  rw [UnpackedFloat.unpack, if_pos htop] at h
  split at h <;> cases h

theorem Float.toBits_abs {x : Float} {sign : Sign} {exponent : BitVec 11} {mantissa : BitVec 52}
    (htop : exponent ≠ -1#11)
    (hbits : x.toBits.toBitVec = packComponents .binary64 sign exponent mantissa) :
    x.abs.toBits.toBitVec = packComponents .binary64 .positive exponent mantissa := by
  show UnpackedFloat.pack .binary64 (UnpackedFloat.unpack .binary64 x.toBits.toBitVec).abs = _
  rw [hbits, pack_abs htop]

theorem Float.isFinite_abs {x : Float} (h : x.isFinite = true) : x.abs.isFinite = true := by
  obtain ⟨sign, exponent, mantissa, htop, hbits⟩ := Float.exists_components h
  show (UnpackedFloat.unpack .binary64 x.abs.toBits.toBitVec).isFinite = true
  rw [Float.toBits_abs htop hbits]
  rcases unpack_packComponents .positive mantissa htop with
    ⟨-, -, hunpack⟩ | ⟨-, _, hunpack⟩ | ⟨-, _, hunpack⟩ <;> rw [hunpack] <;> rfl

theorem Float.not_isNaN_of_isFinite {x : Float} (h : x.isFinite = true) : x.isNaN = false := by
  have h : x.toModel.unpack.isFinite = true := h
  show x.toModel.unpack.isNaN = false
  cases hx : x.toModel.unpack <;> rw [hx] at h
  case notANumber => cases h
  all_goals rfl

theorem Float.not_isInf_of_isFinite {x : Float} (h : x.isFinite = true) : x.isInf = false := by
  have h : x.toModel.unpack.isFinite = true := h
  show x.toModel.unpack.isInf = false
  cases hx : x.toModel.unpack <;> rw [hx] at h
  case infinity => cases h
  all_goals rfl

/-- The magnitude of a finite float. -/
theorem Binary.ofDouble_abs {x : Float} {negative : Bool} {m : Nat} {e : Int}
    (h : x.isFinite = true) (hx : Binary.ofDouble x = .finite negative m e) :
    Binary.ofDouble x.abs = .finite false m e := by
  obtain ⟨sign, exponent, mantissa, htop, hbits⟩ := Float.exists_components h
  obtain ⟨m', e', hdecode⟩ := BinaryFormat.decode_packComponents mantissa htop
  have hx' : BinaryFormat.double.decode x.toBits.toBitVec.toNat = .finite negative m e := hx
  rw [hbits, hdecode sign] at hx'
  obtain ⟨-, rfl, rfl⟩ := Binary.finite.inj hx'
  show BinaryFormat.double.decode x.abs.toBits.toBitVec.toNat = _
  rw [Float.toBits_abs htop hbits, hdecode]
  rfl

theorem Float.eq_of_toBits {x y : Float} (h : x.toBits.toBitVec = y.toBits.toBitVec) : x = y := by
  obtain ⟨⟨a, ha⟩⟩ := x
  obtain ⟨⟨b, hb⟩⟩ := y
  obtain rfl : a = b := UInt64.toBitVec_inj.mp h
  rfl

/-- A finite float without a sign is its own magnitude. -/
theorem Float.abs_eq_self {x : Float} (h : x.isFinite = true)
    (hsign : (Binary.ofDouble x).isNegative = false) : x.abs = x := by
  obtain ⟨sign, exponent, mantissa, htop, hbits⟩ := Float.exists_components h
  obtain ⟨m, e, hdecode⟩ := BinaryFormat.decode_packComponents mantissa htop
  have hpositive : (BinaryFormat.double.decode x.toBits.toBitVec.toNat).isNegative = false := hsign
  rw [hbits, hdecode sign] at hpositive
  cases sign with
  | negative => cases hpositive
  | positive => exact Float.eq_of_toBits ((Float.toBits_abs htop hbits).trans hbits.symm)

theorem Float.lt_zero_of_unpack {x : Float} {m : Nat} {e : Int} {hpos : 0 < m}
    (h : x.toModel.unpack = .finite .negative m e hpos) : x < 0 := by
  have hlt : UnpackedFloat.lt x.toModel.unpack (0 : Float).toModel.unpack = true := by
    rw [h, show (0 : Float).toModel.unpack = .zero .positive from rfl]
    rfl
  have hmodel : x.toModel < (0 : Float).toModel := hlt
  exact decide_eq_true hmodel

/-- A finite float with a sign is below zero or the negative zero. -/
theorem Float.lt_zero_or_eq {x : Float} (h : x.isFinite = true)
    (hsign : (Binary.ofDouble x).isNegative = true) : x < 0 ∨ x = -0.0 := by
  obtain ⟨sign, exponent, mantissa, htop, hbits⟩ := Float.exists_components h
  obtain ⟨m, e, hdecode⟩ := BinaryFormat.decode_packComponents mantissa htop
  have hnegative : (BinaryFormat.double.decode x.toBits.toBitVec.toNat).isNegative = true := hsign
  rw [hbits, hdecode sign] at hnegative
  cases sign with
  | positive => cases hnegative
  | negative =>
    have hunpack : x.toModel.unpack = UnpackedFloat.unpack .binary64 _ :=
      congrArg (UnpackedFloat.unpack .binary64) hbits
    rcases unpack_packComponents .negative mantissa htop with
      ⟨rfl, rfl, -⟩ | ⟨-, _, hfinite⟩ | ⟨-, _, hfinite⟩
    · exact .inr (Float.eq_of_toBits hbits)
    · exact .inl (Float.lt_zero_of_unpack (hunpack.trans hfinite))
    · exact .inl (Float.lt_zero_of_unpack (hunpack.trans hfinite))

end StepSequencer
