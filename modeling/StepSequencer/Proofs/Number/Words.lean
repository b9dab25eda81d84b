import StepSequencer.Number.Word

/-!
# Words as integers

What the operations on words do to the integers they stand for. A checked operation answers exactly
when a word holds the result, and then with that result; adding, subtracting and negating wrap, and
are exact where nothing overflows.

`IsSmall` integers leave room for one more sum or difference, which is what makes wrapped and exact
arithmetic agree one step further on.
-/

namespace StepSequencer.Word

/-! ### Ranges -/

/-- The integer is one that a word holds. -/
def Holds (n : Int) : Prop := -2 ^ 63 ≤ n ∧ n < 2 ^ 63

/-- The integer leaves room for one more sum. -/
def IsSmall (n : Int) : Prop := -2 ^ 62 ≤ n ∧ n ≤ 2 ^ 62

instance (n : Int) : Decidable (Holds n) := inferInstanceAs (Decidable (_ ∧ _))

instance (n : Int) : Decidable (IsSmall n) := inferInstanceAs (Decidable (_ ∧ _))

theorem holds_toInt (w : Int64) : Holds w.toInt := ⟨w.le_toInt, w.toInt_lt⟩

theorem IsSmall.holds {n : Int} (h : IsSmall n) : Holds n := by
  unfold IsSmall at h
  unfold Holds
  omega

/-! ### Wrapped arithmetic -/

theorem bmod_of_holds {n : Int} (h : Holds n) : n.bmod (2 ^ 64) = n := by
  unfold Holds at h
  exact Int.bmod_eq_of_le (by omega) (by omega)

theorem toInt_add {a b : Int64} (h : Holds (a.toInt + b.toInt)) :
    (a + b).toInt = a.toInt + b.toInt := by
  rw [Int64.toInt_add, bmod_of_holds h]

theorem toInt_sub {a b : Int64} (h : Holds (a.toInt - b.toInt)) :
    (a - b).toInt = a.toInt - b.toInt := by
  rw [Int64.toInt_sub, bmod_of_holds h]

/-- Only the least word has no negation. -/
theorem toInt_neg {a : Int64} (h : a ≠ Int64.minValue) : (-a).toInt = -a.toInt := by
  have hne : a.toInt ≠ -2 ^ 63 := fun heq ↦ h (Int64.toInt_inj.mp heq)
  have hlow := a.le_toInt
  have hhigh := a.toInt_lt
  rw [Int64.toInt_neg, bmod_of_holds ⟨by omega, by omega⟩]

theorem neg_ne_minValue {a : Int64} (h : a ≠ Int64.minValue) : -a ≠ Int64.minValue := by
  intro heq
  have hneg := toInt_neg h
  rw [heq, Int64.toInt_minValue] at hneg
  have hhigh := a.toInt_lt
  omega

/-! ### Checked arithmetic -/

theorem ofInt?_of_holds {n : Int} (h : Holds n) : ∃ w, ofInt? n = some w ∧ w.toInt = n := by
  refine ⟨Int64.ofInt n, ?_, Int64.toInt_ofInt_of_le h.1 h.2⟩
  unfold ofInt?
  exact if_pos h

theorem ofInt?_eq_none_iff {n : Int} : ofInt? n = none ↔ ¬Holds n := by
  constructor
  · intro h hholds
    obtain ⟨w, hw, -⟩ := ofInt?_of_holds hholds
    cases h.symm.trans hw
  · exact fun h ↦ if_neg h

theorem add?_eq_some_iff {a b w : Int64} : add? a b = some w ↔ w.toInt = a.toInt + b.toInt :=
  ofInt?_eq_some_iff

theorem sub?_eq_some_iff {a b w : Int64} : sub? a b = some w ↔ w.toInt = a.toInt - b.toInt :=
  ofInt?_eq_some_iff

theorem neg?_eq_some_iff {a w : Int64} : neg? a = some w ↔ w.toInt = -a.toInt :=
  ofInt?_eq_some_iff

/-- The step shifted back by a negated offset is the step with the offset added. -/
theorem toInt_sub_of_neg? {x offset shift : Int64} (hshift : neg? offset = some shift)
    (h : Holds (x.toInt + offset.toInt)) : (x - shift).toInt = x.toInt + offset.toInt := by
  have hneg : shift.toInt = -offset.toInt := neg?_eq_some_iff.mp hshift
  have hsum : x.toInt - shift.toInt = x.toInt + offset.toInt := by omega
  rw [toInt_sub (by rwa [hsum]), hsum]

/-! ### Division -/

theorem toInt_ne_zero {b : Int64} (h : b ≠ 0) : b.toInt ≠ 0 := by
  intro hzero
  exact h (Int64.toInt_inj.mp (hzero.trans Int64.toInt_zero.symm))

theorem natAbs_tdiv_le_of_two_le {a b : Int64} (hb : 2 ≤ b.toInt.natAbs) :
    (a.toInt.tdiv b.toInt).natAbs ≤ 2 ^ 62 := by
  have ha : a.toInt.natAbs ≤ 2 ^ 63 := by
    obtain ⟨hlow, hhigh⟩ := holds_toInt a
    omega
  calc (a.toInt.tdiv b.toInt).natAbs = a.toInt.natAbs / b.toInt.natAbs := Int.natAbs_tdiv ..
    _ ≤ 2 ^ 63 / 2 := Nat.div_le_div ha hb (by decide)
    _ = 2 ^ 62 := by decide

/-- A division that leaves a remainder halves at least, so there is room to round it down. -/
theorem natAbs_tdiv_le {a b : Int64} (hb : b ≠ 0) (h : a.toInt.tmod b.toInt ≠ 0) :
    (a.toInt.tdiv b.toInt).natAbs ≤ 2 ^ 62 := by
  have hzero := toInt_ne_zero hb
  have hone : b.toInt.natAbs ≠ 1 := by
    intro hone
    rcases Int.natAbs_eq b.toInt with heq | heq <;> rw [hone] at heq <;> rw [heq] at h <;>
      simp at h
  exact natAbs_tdiv_le_of_two_le (by omega)

/-- Rounding down stays within a word. -/
theorem toInt_sub_one_of_tdiv {a b q : Int64} (hb : b ≠ 0) (h : a.toInt.tmod b.toInt ≠ 0)
    (hq : ofInt? (a.toInt.tdiv b.toInt) = some q) : (q - 1).toInt = q.toInt - 1 := by
  have hquotient : q.toInt = a.toInt.tdiv b.toInt := ofInt?_eq_some_iff.mp hq
  have hsmall := natAbs_tdiv_le hb h
  have hone : (1 : Int64).toInt = 1 := Int64.toInt_one
  rw [toInt_sub, hone]
  rw [hone, hquotient]
  unfold Holds
  omega

/-- Only the least word by minus one has too large a quotient. -/
theorem not_holds_tdiv_iff {a b : Int64} (hb : b ≠ 0) :
    ¬Holds (a.toInt.tdiv b.toInt) ↔ a = Int64.minValue ∧ b = -1 := by
  constructor
  · intro h
    have hlt : b.toInt.natAbs < 2 := by
      refine Nat.lt_of_not_le fun hge ↦ h ?_
      have hsmall := natAbs_tdiv_le_of_two_le (a := a) hge
      unfold Holds
      omega
    have hone : b.toInt = 1 ∨ b.toInt = -1 := by
      have hzero := toInt_ne_zero hb
      omega
    rcases hone with hone | hone
    · rw [hone, Int.tdiv_one] at h
      exact absurd (holds_toInt a) h
    · rw [hone, Int.tdiv_neg, Int.tdiv_one] at h
      have hlow := a.le_toInt
      have hhigh := a.toInt_lt
      have hleast : a.toInt = -2 ^ 63 := by
        unfold Holds at h
        omega
      exact ⟨Int64.toInt_inj.mp hleast, Int64.toInt_inj.mp hone⟩
  · rintro ⟨rfl, rfl⟩
    decide

/-- Rounding toward negative infinity, from rounding toward zero. -/
theorem fdiv_eq_of_tdiv {a b : Int} (hb : b ≠ 0) :
    a.fdiv b = if a.tmod b ≠ 0 ∧ (a < 0) ≠ (b < 0) then a.tdiv b - 1 else a.tdiv b := by
  have hdvd : b ∣ a ↔ a.tmod b = 0 := Int.dvd_iff_tmod_eq_zero
  rw [Int.fdiv_eq_tdiv]
  rcases Int.lt_or_lt_of_ne hb with hneg | hpos
  · have hsign : b.sign = -1 := Int.sign_eq_neg_one_of_neg hneg
    have hnotnonneg : ¬0 ≤ b := Int.not_le.mpr hneg
    by_cases hmod : a.tmod b = 0 <;> by_cases ha : 0 ≤ a <;>
      simp [hdvd, hmod, hsign, hneg, hnotnonneg, ha]
  · have hsign : b.sign = 1 := Int.sign_eq_one_of_pos hpos
    have hnonneg : 0 ≤ b := Int.le_of_lt hpos
    have hnotneg : ¬b < 0 := Int.not_lt.mpr hnonneg
    rcases Int.lt_or_le a 0 with ha | ha
    · by_cases hmod : a.tmod b = 0 <;>
        simp [hdvd, hmod, hsign, hnonneg, hnotneg, ha, Int.not_le.mpr ha]
    · by_cases hmod : a.tmod b = 0 <;>
        simp [hdvd, hmod, hnonneg, hnotneg, ha, Int.not_lt.mpr ha]

theorem toInt_of_floorDiv? {a b q : Int64} (h : floorDiv? a b = some q) :
    b ≠ 0 ∧ q.toInt = a.toInt.fdiv b.toInt := by
  unfold floorDiv? at h
  split at h
  · cases h
  · next hb =>
    refine ⟨hb, ?_⟩
    obtain ⟨t, ht, rfl⟩ := Option.map_eq_some_iff.mp h
    have htdiv : t.toInt = a.toInt.tdiv b.toInt := ofInt?_eq_some_iff.mp ht
    have hzero : (0 : Int64).toInt = 0 := Int64.toInt_zero
    rw [fdiv_eq_of_tdiv (toInt_ne_zero hb)]
    simp only [Int64.lt_iff_toInt_lt, hzero]
    split
    · next hround => rw [toInt_sub_one_of_tdiv hb hround.1 ht, htdiv]
    · exact htdiv

/-- There is no quotient exactly for a zero divisor and where the quotient is too large. -/
theorem floorDiv?_eq_none_iff {a b : Int64} :
    floorDiv? a b = none ↔ b = 0 ∨ a = Int64.minValue ∧ b = -1 := by
  unfold floorDiv?
  split
  · next hb => exact ⟨fun _ ↦ .inl hb, fun _ ↦ rfl⟩
  · next hb =>
    rw [Option.map_eq_none_iff, ofInt?_eq_none_iff, not_holds_tdiv_iff hb]
    exact (or_iff_right hb).symm

theorem toInt_of_floorMod? {a b r : Int64} (h : floorMod? a b = some r) :
    b ≠ 0 ∧ r.toInt = a.toInt.fmod b.toInt := by
  obtain ⟨q, hq, h⟩ := Option.bind_eq_some_iff.mp h
  obtain ⟨p, hp, hr⟩ := Option.bind_eq_some_iff.mp h
  obtain ⟨hb, hquotient⟩ := toInt_of_floorDiv? hq
  have hproduct : p.toInt = b.toInt * q.toInt := ofInt?_eq_some_iff.mp hp
  have hrest : r.toInt = a.toInt - p.toInt := sub?_eq_some_iff.mp hr
  refine ⟨hb, ?_⟩
  rw [hrest, hproduct, hquotient, Int.fmod_def]

/-- A remainder is smaller than the divisor. -/
theorem natAbs_fmod_lt {b : Int} (hb : b ≠ 0) (a : Int) : (a.fmod b).natAbs < b.natAbs := by
  rcases Int.lt_or_lt_of_ne hb with hneg | hpos
  · have hlow := Int.fmod_nonneg_of_pos (-a) (Int.neg_pos_of_neg hneg)
    have hhigh := Int.fmod_lt_of_pos (-a) (Int.neg_pos_of_neg hneg)
    rw [Int.neg_fmod_neg] at hlow hhigh
    omega
  · have hlow := Int.fmod_nonneg_of_pos a hpos
    have hhigh := Int.fmod_lt_of_pos a hpos
    omega

/-- There is a remainder where the multiple of the divisor that is taken away fits a word. -/
theorem floorMod?_of_floorDiv? {a b q : Int64} (hq : floorDiv? a b = some q)
    (h : Holds (b.toInt * a.toInt.fdiv b.toInt)) : ∃ r, floorMod? a b = some r := by
  obtain ⟨hb, hquotient⟩ := toInt_of_floorDiv? hq
  rw [← hquotient] at h
  obtain ⟨p, hp, hproduct⟩ := ofInt?_of_holds h
  have hrest : a.toInt - p.toInt = a.toInt.fmod b.toInt := by
    rw [Int.fmod_def, hproduct, hquotient]
  have hlt := natAbs_fmod_lt (toInt_ne_zero hb) a.toInt
  have hholds : Holds (a.toInt - p.toInt) := by
    rw [hrest]
    obtain ⟨hlow, hhigh⟩ := holds_toInt b
    unfold Holds
    omega
  obtain ⟨r, hr, -⟩ := ofInt?_of_holds hholds
  exact ⟨r, by rw [floorMod?, hq, Option.bind_some, mul?, hp, Option.bind_some, sub?, hr]⟩

theorem floorDiv?_of_small {a b : Int64} (ha : IsSmall a.toInt) (hb : b ≠ 0) :
    ∃ q, floorDiv? a b = some q := by
  have hle : (a.toInt.tdiv b.toInt).natAbs ≤ a.toInt.natAbs := by
    rw [Int.natAbs_tdiv]
    exact Nat.div_le_self ..
  have hholds : Holds (a.toInt.tdiv b.toInt) := by
    unfold IsSmall at ha
    unfold Holds
    omega
  obtain ⟨t, ht, -⟩ := ofInt?_of_holds hholds
  unfold floorDiv?
  rw [if_neg hb, ht]
  exact ⟨_, rfl⟩

/-- The remainder of a small word by a small positive one. -/
theorem floorMod?_of_small {a m : Int64} (ha : IsSmall a.toInt) (hm : IsSmall m.toInt)
    (hpos : 0 < m.toInt) : ∃ r, floorMod? a m = some r ∧ r.toInt = a.toInt % m.toInt := by
  have hne : m ≠ 0 := by
    rintro rfl
    exact absurd hpos (by decide)
  obtain ⟨q, hq⟩ := floorDiv?_of_small ha hne
  obtain ⟨-, hquotient⟩ := toInt_of_floorDiv? hq
  rw [Int.fdiv_eq_ediv_of_nonneg _ (Int.le_of_lt hpos)] at hquotient
  have hsplit : m.toInt * q.toInt + a.toInt % m.toInt = a.toInt := by
    rw [hquotient]
    exact Int.mul_ediv_add_emod ..
  have hlow := Int.emod_nonneg a.toInt (Int.ne_of_gt hpos)
  have hhigh := Int.emod_lt_of_pos a.toInt hpos
  -- the product that is taken away is at most a modulus from the small word
  have hholds : Holds (m.toInt * q.toInt) := by
    unfold IsSmall at ha hm
    unfold Holds
    omega
  obtain ⟨p, hp, hproduct⟩ := ofInt?_of_holds hholds
  have hrest : a.toInt - p.toInt = a.toInt % m.toInt := by omega
  have hholds' : Holds (a.toInt - p.toInt) := by
    unfold IsSmall at hm
    unfold Holds
    omega
  obtain ⟨r, hr, hvalue⟩ := ofInt?_of_holds hholds'
  refine ⟨r, ?_, hvalue.trans hrest⟩
  rw [floorMod?, hq, Option.bind_some, mul?, hp, Option.bind_some, sub?, hr]

/-! ### Powers -/

/-- A number fits a word if its product with a positive number does. -/
theorem holds_of_mul_pos {n k : Int} (hk : 0 < k) (h : Holds (n * k)) : Holds n := by
  unfold Holds at *
  rcases Int.le_total 0 n with hn | hn
  · have hle : n * 1 ≤ n * k := Int.mul_le_mul_of_nonneg_left hk hn
    omega
  · have hle : n * k ≤ n * 1 := Int.mul_le_mul_of_nonpos_left hn hk
    omega

/-- A square fits a word if a multiple of it does, since the integer after the greatest word is no
square. -/
theorem holds_square {k b : Int} (hk : k ≠ 0) (h : Holds (k * (b * b))) : Holds (b * b) := by
  have habs : (b * b).natAbs = b.natAbs * b.natAbs := Int.natAbs_mul b b
  have hle : b.natAbs * b.natAbs ≤ 2 ^ 63 := by
    have hfactor : 1 * (b * b).natAbs ≤ k.natAbs * (b * b).natAbs :=
      Nat.mul_le_mul_right _ (Int.natAbs_pos.mpr hk)
    rw [← Int.natAbs_mul] at hfactor
    unfold Holds at h
    omega
  have hroot : b.natAbs < 3037000500 := by
    refine Nat.lt_of_not_le fun hge ↦ ?_
    have hsquare := Nat.mul_le_mul hge hge
    omega
  have hlt : b.natAbs * b.natAbs ≤ 3037000499 * 3037000499 :=
    Nat.mul_le_mul (Nat.le_of_lt_succ hroot) (Nat.le_of_lt_succ hroot)
  unfold Holds
  omega

theorem mul_self_eq_pow (b : Int) : b * b = b ^ 2 := by
  rw [Int.pow_succ, Int.pow_succ, Int.pow_zero, Int.one_mul]

theorem pow_eq_square_pow (b : Int) (n : Nat) : b ^ n = b ^ (n % 2) * (b * b) ^ (n / 2) := by
  rw [mul_self_eq_pow, ← Int.pow_mul, ← Int.pow_add, Nat.mod_add_div]

/-- Where the whole product fits a word, so does what repeated squaring computes on the way to it. -/
theorem holds_of_squaring {a b : Int} {n : Nat} (hzero : a = 0 → b = 0) (hn : 2 ≤ n)
    (ha : Holds a) (h : Holds (a * b ^ n)) : Holds (a * b ^ (n % 2)) ∧ Holds (b * b) := by
  by_cases hb : b = 0
  · subst hb
    refine ⟨?_, by decide⟩
    rcases Nat.mod_two_eq_zero_or_one n with heven | hodd
    · rwa [heven, Int.pow_zero, Int.mul_one]
    · rw [hodd, Int.pow_one, Int.mul_zero]
      decide
  · have ha' : a ≠ 0 := fun heq ↦ hb (hzero heq)
    constructor
    · rw [pow_eq_square_pow, ← Int.mul_assoc] at h
      have hsquare : 0 < b * b := by
        rcases Int.lt_or_gt_of_ne hb with hneg | hpos
        · exact Int.mul_pos_of_neg_of_neg hneg hneg
        · exact Int.mul_pos hpos hpos
      exact holds_of_mul_pos (Int.pow_pos hsquare) h
    · have hsplit : a * b ^ n = a * b ^ (n - 2) * (b * b) := by
        rw [mul_self_eq_pow, Int.mul_assoc, ← Int.pow_add, Nat.sub_add_cancel hn]
      rw [hsplit] at h
      exact holds_square (Int.mul_ne_zero ha' (Int.pow_ne_zero hb)) h

/-- One round of repeated squaring. -/
theorem powFrom?_step {acc base : Int64} {n : Nat} (hn : n ≠ 0) :
    powFrom? acc base n = (ofInt? (acc.toInt * base.toInt ^ (n % 2))).bind fun product ↦
      if n = 1 then some product
      else (mul? base base).bind fun square ↦ powFrom? product square (n / 2) := by
  have hjoined : (if n % 2 = 1 then mul? acc base else some acc) =
      ofInt? (acc.toInt * base.toInt ^ (n % 2)) := by
    rcases Nat.mod_two_eq_zero_or_one n with heven | hodd
    · rw [if_neg (by omega), heven, Int.pow_zero, Int.mul_one, ofInt?_toInt]
    · rw [if_pos hodd, hodd, Int.pow_one, mul?]
  rw [powFrom?, if_neg hn, hjoined]

/-- Repeated squaring is exact: no product on the way overflows unless the result does. -/
theorem powFrom?_eq_some_iff {acc base w : Int64} {n : Nat}
    (hzero : acc.toInt = 0 → base.toInt = 0) :
    powFrom? acc base n = some w ↔ w.toInt = acc.toInt * base.toInt ^ n := by
  induction n using Nat.strongRecOn generalizing acc base with
  | _ n ih =>
    by_cases hn : n = 0
    · subst hn
      rw [powFrom?, if_pos rfl, Int.pow_zero, Int.mul_one, Option.some.injEq, ← Int64.toInt_inj,
        eq_comm]
    rw [powFrom?_step hn]
    by_cases hone : n = 1
    · subst hone
      simp only [if_true, Option.bind_fun_some]
      exact ofInt?_eq_some_iff
    simp only [if_neg hone]
    -- what the remaining rounds start from
    have hround {product square : Int64} (hproduct : product.toInt = acc.toInt * base.toInt ^ (n % 2))
        (hsquare : square.toInt = base.toInt * base.toInt) :
        powFrom? product square (n / 2) = some w ↔ w.toInt = acc.toInt * base.toInt ^ n := by
      have hzero' : product.toInt = 0 → square.toInt = 0 := by
        intro heq
        have hbase : base.toInt = 0 := by
          rcases Int.mul_eq_zero.mp (hproduct.symm.trans heq) with hacc | hpow
          · exact hzero hacc
          · exact Classical.byContradiction fun hne ↦ Int.pow_ne_zero hne hpow
        rw [hsquare, hbase, Int.mul_zero]
      rw [ih (n / 2) (by omega) hzero', hproduct, hsquare, Int.mul_assoc, ← pow_eq_square_pow]
    constructor
    · intro h
      obtain ⟨product, hproduct, h⟩ := Option.bind_eq_some_iff.mp h
      obtain ⟨square, hsquare, h⟩ := Option.bind_eq_some_iff.mp h
      exact (hround (ofInt?_eq_some_iff.mp hproduct) (ofInt?_eq_some_iff.mp hsquare)).mp h
    · intro h
      obtain ⟨hproduct, hsquare⟩ :=
        holds_of_squaring hzero (by omega) (holds_toInt acc) (h ▸ holds_toInt w)
      obtain ⟨product, hp, hproduct⟩ := ofInt?_of_holds hproduct
      obtain ⟨square, hs, hsquare⟩ := ofInt?_of_holds hsquare
      rw [hp, Option.bind_some, mul?, hs, Option.bind_some]
      exact (hround hproduct hsquare).mpr h

theorem pow?_eq_some_iff {a w : Int64} {n : Nat} : pow? a n = some w ↔ w.toInt = a.toInt ^ n := by
  have hone : (1 : Int64).toInt = 1 := Int64.toInt_one
  rw [pow?, powFrom?_eq_some_iff (by rw [hone]; nofun), hone, Int.one_mul]

/-! ### Order -/

theorem pos_iff {w : Int64} : 0 < w ↔ 0 < w.toInt := by
  rw [Int64.lt_iff_toInt_lt, Int64.toInt_zero]

theorem nonneg_iff {w : Int64} : 0 ≤ w ↔ 0 ≤ w.toInt := by
  rw [Int64.le_iff_toInt_le, Int64.toInt_zero]

theorem beq_eq (a b : Int64) : (a == b) = decide (a.toInt = b.toInt) := by
  rw [Bool.eq_iff_iff, beq_iff_eq, decide_eq_true_iff, Int64.toInt_inj]

end StepSequencer.Word
