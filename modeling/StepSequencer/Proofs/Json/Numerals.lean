import StepSequencer.Json.Decode
import StepSequencer.Proofs.Number.Digits

/-!
# Number literals

`Numeral cs` says that a text is spelled like a number of JSON: a whole part without a leading zero,
then perhaps a point with digits and an exponent. The reader takes a numeral as a whole, whatever
comes after it that does not go on with it (`number_append`).

The texts that stored numbers are written as are numerals: whole numbers (`numeral_toString`) and
decimals (`numeral_decimal`). A whole number of 64 bits is also what its numeral stands for
(`ofString_toString`).
-/

namespace StepSequencer

namespace JsonReader

/-! ### The parts of a numeral -/

/-- One digit or more. -/
structure IsDigits (cs : List Char) : Prop where
  nonempty : cs ≠ []
  digits : ∀ c ∈ cs, c.isDigit = true

/-- Digits that do not begin with a zero, or a zero alone. -/
structure IsWhole (cs : List Char) : Prop extends IsDigits cs where
  zero_alone : cs.head? = some '0' → cs = ['0']

/-- Nothing, or a point and digits. -/
inductive IsFraction : List Char → Prop where
  | none : IsFraction []
  | digits {ds : List Char} (h : IsDigits ds) : IsFraction ('.' :: ds)

/-- Nothing, or the letter of an exponent, perhaps a sign, and digits. -/
inductive IsExponent : List Char → Prop where
  | none : IsExponent []
  | digits {sign ds : List Char} (hsign : sign = [] ∨ sign = ['+'] ∨ sign = ['-'])
      (h : IsDigits ds) : IsExponent ('e' :: (sign ++ ds))

/-- The text is spelled like a number without its sign. -/
inductive Unsigned : List Char → Prop where
  | parts {whole fraction exponent : List Char} (hwhole : IsWhole whole)
      (hfraction : IsFraction fraction) (hexponent : IsExponent exponent) :
      Unsigned (whole ++ (fraction ++ exponent))

/-- The text is spelled like a number. -/
inductive Numeral : List Char → Prop where
  | unsigned {cs : List Char} (h : Unsigned cs) : Numeral cs
  | negative {cs : List Char} (h : Unsigned cs) : Numeral ('-' :: cs)

/-- The character goes on with a numeral. -/
def continuesNumeral (c : Char) : Bool := c.isDigit || c == '.' || c == 'e' || c == 'E'

/-- A numeral ends before this text. -/
def endsNumeral (rest : List Char) : Bool := rest.head?.all (!continuesNumeral ·)

variable {cs rest : List Char}

/-! ### Reading the parts -/

theorem not_continues_of_ends {c : Char} (h : endsNumeral (c :: rest) = true) :
    c.isDigit = false ∧ c ≠ '.' ∧ c ≠ 'e' ∧ c ≠ 'E' := by
  have hc : continuesNumeral c = false := (Bool.not_eq_true' _).mp h
  simpa [continuesNumeral, and_assoc] using hc

theorem digitStops_of_ends (h : endsNumeral rest = true) : rest.head?.all (!Char.isDigit ·) = true := by
  rcases rest with - | ⟨c, rest⟩
  · rfl
  · exact (Bool.not_eq_true' _).mpr (not_continues_of_ends h).1

/-- The digits of a run, before a text that does not begin with one. -/
theorem IsDigits.takeWhile (h : IsDigits cs) (hrest : rest.head?.all (!Char.isDigit ·) = true) :
    (cs ++ rest).takeWhile Char.isDigit = cs ∧ (cs ++ rest).dropWhile Char.isDigit = rest ∧
      cs.isEmpty = false :=
  have ⟨htake, hdrop⟩ := takeWhile_append_of_head? h.digits hrest
  ⟨htake, hdrop, List.isEmpty_eq_false_iff.mpr h.nonempty⟩

theorem wholeDigits_append (h : IsWhole cs) (hrest : rest.head?.all (!Char.isDigit ·) = true) :
    wholeDigits (cs ++ rest) = some (cs, rest) := by
  rcases cs with - | ⟨c, cs⟩
  · exact absurd rfl h.nonempty
  obtain ⟨htake, hdrop, hne⟩ := h.toIsDigits.takeWhile hrest
  by_cases hc : c = '0'
  · subst hc
    cases h.zero_alone rfl
    rfl
  · rw [wholeDigits]
    · rw [htake, hdrop, hne]
      rfl
    · rintro r ⟨⟩
      exact hc rfl

theorem fractionPart_append (h : IsFraction cs) (hrest : rest.head?.all (!Char.isDigit ·) = true)
    (hpoint : rest.head? ≠ some '.') : fractionPart (cs ++ rest) = some (cs, rest) := by
  cases h with
  | none =>
    rw [List.nil_append, fractionPart]
    rintro r rfl
    exact hpoint rfl
  | @digits ds hds =>
    obtain ⟨htake, hdrop, hne⟩ := hds.takeWhile hrest
    rw [List.cons_append, fractionPart, htake, hdrop, hne]
    rfl

theorem exponentSign_append {sign : List Char} (hsign : sign = [] ∨ sign = ['+'] ∨ sign = ['-'])
    (h : IsDigits cs) : exponentSign (sign ++ (cs ++ rest)) = (sign, cs ++ rest) := by
  rcases hsign with rfl | rfl | rfl
  · rcases cs with - | ⟨c, cs⟩
    · exact absurd rfl h.nonempty
    have hc := h.digits c (List.mem_cons_self ..)
    rw [List.nil_append, List.cons_append, exponentSign]
    · rintro r ⟨⟩
      cases hc
    · rintro r ⟨⟩
      cases hc
  · rfl
  · rfl

theorem exponentPart_append (h : IsExponent cs) (hrest : endsNumeral rest = true) :
    exponentPart (cs ++ rest) = some (cs, rest) := by
  cases h with
  | none =>
    rcases rest with - | ⟨c, rest⟩
    · rfl
    obtain ⟨-, -, he, hE⟩ := not_continues_of_ends hrest
    rw [List.nil_append, exponentPart, if_neg (by simp [he, hE])]
  | @digits sign ds hsign hds =>
    obtain ⟨htake, hdrop, hne⟩ := hds.takeWhile (digitStops_of_ends hrest)
    rw [List.cons_append, List.append_assoc, exponentPart, exponentSign_append hsign hds]
    dsimp only
    rw [htake, hdrop, hne]
    rfl

/-- An exponent, before a text that does not go on with it, does not begin with a point or a
digit. -/
theorem head?_exponent (h : IsExponent cs) (hrest : endsNumeral rest = true) :
    (cs ++ rest).head?.all (!Char.isDigit ·) = true ∧ (cs ++ rest).head? ≠ some '.' := by
  cases h with
  | none =>
    refine ⟨digitStops_of_ends hrest, ?_⟩
    rcases rest with - | ⟨c, rest⟩
    · exact Option.some_ne_none _ ∘ Eq.symm
    · exact fun heq ↦ (not_continues_of_ends hrest).2.1 (Option.some.inj heq)
  | digits hsign hds => exact ⟨rfl, by simp⟩

theorem head?_fraction (h : IsFraction cs) (hrest : rest.head?.all (!Char.isDigit ·) = true) :
    (cs ++ rest).head?.all (!Char.isDigit ·) = true := by
  cases h with
  | none => exact hrest
  | digits hds => rfl

theorem unsignedNumber_append (h : Unsigned cs) (hrest : endsNumeral rest = true) :
    unsignedNumber (cs ++ rest) = some (cs, rest) := by
  obtain ⟨hwhole, hfraction, hexponent⟩ := h
  next whole fraction exponent =>
  obtain ⟨hdigit, hpoint⟩ := head?_exponent hexponent hrest
  have hassoc : whole ++ (fraction ++ exponent) ++ rest = whole ++ (fraction ++ (exponent ++ rest)) := by
    simp only [List.append_assoc]
  rw [unsignedNumber, hassoc, wholeDigits_append hwhole (head?_fraction hfraction hdigit)]
  dsimp only [Option.bind_eq_bind, Option.bind_some]
  rw [fractionPart_append hfraction hdigit hpoint, Option.bind_some, exponentPart_append hexponent hrest,
    Option.bind_some, List.append_assoc]

/-- The first character of a number without its sign is a digit. -/
theorem Unsigned.exists_cons (h : Unsigned cs) : ∃ c ds, cs = c :: ds ∧ c.isDigit = true := by
  obtain ⟨hwhole, -, -⟩ := h
  next whole fraction exponent =>
  rcases whole with - | ⟨c, ds⟩
  · exact absurd rfl hwhole.nonempty
  · exact ⟨c, ds ++ (fraction ++ exponent), rfl, hwhole.digits c (List.mem_cons_self ..)⟩

/-- **A numeral** is read whole. -/
theorem number_append (h : Numeral cs) (hrest : endsNumeral rest = true) :
    number (cs ++ rest) = some (cs, rest) := by
  cases h with
  | unsigned h =>
    have hread := unsignedNumber_append h hrest
    obtain ⟨c, ds, rfl, hc⟩ := h.exists_cons
    rw [List.cons_append] at hread ⊢
    rw [number]
    · exact hread
    · rintro r ⟨⟩
      cases hc
  | negative h =>
    rw [List.cons_append, number, unsignedNumber_append h hrest]
    rfl

/-! ### Written numbers -/

theorem isDigits_toDigits (n : Nat) : IsDigits (Nat.toDigits 10 n) :=
  ⟨Nat.toDigits_ne_nil, fun _ ↦ isDigit_of_mem_toDigits⟩

theorem isWhole_toDigits (n : Nat) : IsWhole (Nat.toDigits 10 n) where
  toIsDigits := isDigits_toDigits n
  zero_alone h := by
    by_cases hn : n = 0
    · rw [hn, Nat.toDigits_zero]
    · exact absurd h (head?_toDigits hn)

theorem IsDigits.append (h : IsDigits cs) (hrest : ∀ c ∈ rest, c.isDigit = true) :
    IsDigits (cs ++ rest) where
  nonempty := List.append_ne_nil_of_left_ne_nil h.nonempty rest
  digits c hc := (List.mem_append.mp hc).elim (h.digits c) (hrest c)

theorem IsDigits.take (h : IsDigits cs) {n : Nat} (hn : n ≠ 0) : IsDigits (cs.take n) where
  nonempty := by simp [hn, h.nonempty]
  digits c hc := h.digits c (List.mem_of_mem_take hc)

theorem IsDigits.drop (h : IsDigits cs) {n : Nat} (hn : n < cs.length) : IsDigits (cs.drop n) where
  nonempty := by simpa using hn
  digits c hc := h.digits c (List.mem_of_mem_drop hc)

/-- Digits before the point and digits after it. -/
theorem IsWhole.point (hwhole : IsWhole cs) (hfraction : IsDigits rest) :
    Unsigned (cs ++ '.' :: rest) := by
  have h := Unsigned.parts hwhole (.digits hfraction) .none
  rwa [List.append_nil] at h

theorem numeral_toDigits (n : Nat) : Unsigned (Nat.toDigits 10 n) := by
  have h := Unsigned.parts (isWhole_toDigits n) .none .none
  rwa [List.append_nil, List.append_nil] at h

theorem numeral_toString (n : Int) : Numeral (toString n).toList := by
  rcases Int.lt_or_le n 0 with hneg | hnonneg
  · rw [toString_of_neg hneg]
    exact .negative (numeral_toDigits _)
  · obtain ⟨m, rfl⟩ := Int.eq_ofNat_of_zero_le hnonneg
    rw [toString_ofNat]
    exact .unsigned (numeral_toDigits m)

end JsonReader

namespace NumberLayout

open JsonReader

theorem toList_zeros (n : Nat) : (zeros n).toList = List.replicate n '0' := String.toList_ofList

/-- The text of a whole number: zeros may follow its digits, but none comes before them. -/
theorem isWhole_positional {d : Decimal} (h : 0 ≤ d.exponent) :
    IsWhole (positional false d).toList := by
  have hdigits := isDigits_toDigits d.digits
  rw [positional]
  dsimp only
  rw [if_pos h, if_neg Bool.false_ne_true, String.append_empty, String.toList_append,
    String.toList_ofList]
  split
  · rw [String.toList_empty, List.append_nil]
    exact isWhole_toDigits d.digits
  · next hne =>
    rw [toList_zeros]
    refine ⟨hdigits.append fun c hc ↦ ?_, fun h ↦ absurd ?_ (head?_toDigits hne)⟩
    · rw [List.eq_of_mem_replicate hc]
      rfl
    · rcases hds : Nat.toDigits 10 d.digits with - | ⟨c, cs⟩
      · exact absurd hds Nat.toDigits_ne_nil
      · rwa [hds] at h

/-- The value of the text of a whole number. -/
theorem readDigits_positional {d : Decimal} (h : 0 ≤ d.exponent) :
    readDigits (positional false d).toList = d.digits * 10 ^ d.exponent.toNat := by
  rw [positional]
  dsimp only
  rw [if_pos h, if_neg Bool.false_ne_true, String.append_empty, String.toList_append,
    String.toList_ofList]
  split
  · next hzero =>
    rw [String.toList_empty, List.append_nil, readDigits_toDigits, hzero, Nat.zero_mul]
  · rw [toList_zeros, readDigits_append_zeros, readDigits_toDigits]

theorem positional_of_nonneg {d : Decimal} (h : 0 ≤ d.exponent) :
    positional true d = positional false d ++ ".0" := by
  rw [positional, positional]
  dsimp only
  rw [if_pos h, if_pos h, if_neg Bool.false_ne_true, String.append_empty, if_pos rfl]

/-- A number that is not whole has its point in any case. -/
theorem positional_of_neg {d : Decimal} (h : ¬0 ≤ d.exponent) :
    positional true d = positional false d := by
  rw [positional, positional]
  dsimp only
  rw [if_neg h, if_neg h]

/-- The positional text of a decimal, with a point in it, has digits on both sides of the point. -/
theorem exists_positional (d : Decimal) : ∃ whole fraction, IsWhole whole ∧ IsDigits fraction ∧
    (positional true d).toList = whole ++ '.' :: fraction := by
  by_cases h : 0 ≤ d.exponent
  · refine ⟨_, ['0'], isWhole_positional h,
      ⟨List.cons_ne_nil _ _, List.forall_mem_singleton.mpr rfl⟩, ?_⟩
    rw [positional_of_nonneg h, String.toList_append]
    rfl
  have hdigits := isDigits_toDigits d.digits
  rw [positional]
  dsimp only
  rw [if_neg h]
  split
  · -- below one: zeros fill up the fraction
    have hfraction : IsDigits (List.replicate
        ((-d.exponent).toNat - (Nat.toDigits 10 d.digits).length) '0' ++ Nat.toDigits 10 d.digits) := by
      refine ⟨List.append_ne_nil_of_right_ne_nil _ Nat.toDigits_ne_nil, fun c hc ↦ ?_⟩
      rcases List.mem_append.mp hc with hzero | hdigit
      · rw [List.eq_of_mem_replicate hzero]
        rfl
      · exact hdigits.digits c hdigit
    refine ⟨Nat.toDigits 10 0, _, isWhole_toDigits 0, hfraction, ?_⟩
    rw [String.toList_append, String.toList_append, toList_zeros, List.append_assoc,
      String.toList_ofList (l := Nat.toDigits 10 d.digits)]
    rfl
  · next hlength =>
    -- the point splits the digits
    have hne : d.digits ≠ 0 := by
      intro hzero
      rw [hzero, Nat.toDigits_zero, List.length_singleton] at hlength
      omega
    have hwhole : IsWhole ((Nat.toDigits 10 d.digits).take
        ((Nat.toDigits 10 d.digits).length - (-d.exponent).toNat)) := by
      refine ⟨hdigits.take (by omega), fun h ↦ absurd ?_ (head?_toDigits hne)⟩
      rwa [List.head?_take, if_neg (by omega)] at h
    have hfraction : IsDigits ((Nat.toDigits 10 d.digits).drop
        ((Nat.toDigits 10 d.digits).length - (-d.exponent).toNat)) := hdigits.drop (by omega)
    refine ⟨_, _, hwhole, hfraction, ?_⟩
    rw [String.toList_append, String.toList_append, List.append_assoc,
      String.toList_ofList (l := List.take _ _), String.toList_ofList (l := List.drop _ _)]
    rfl

theorem unsigned_positional (d : Decimal) : Unsigned (positional true d).toList := by
  obtain ⟨whole, fraction, hwhole, hfraction, htext⟩ := exists_positional d
  rw [htext]
  exact hwhole.point hfraction

/-- The text of a decimal with an exponent. -/
theorem unsigned_scientific {d : Decimal} (h : d.digits ≠ 0) (power : Int) :
    Unsigned (scientific true power d).toList := by
  have hdigits := isDigits_toDigits d.digits
  have hwhole : IsWhole ((Nat.toDigits 10 d.digits).take 1) := by
    refine ⟨hdigits.take Nat.one_ne_zero, fun hhead ↦ absurd ?_ (head?_toDigits h)⟩
    rwa [List.head?_take, if_neg Nat.one_ne_zero] at hhead
  have hfraction : IsFraction (if ((Nat.toDigits 10 d.digits).drop 1).isEmpty then ""
      else "." ++ String.ofList ((Nat.toDigits 10 d.digits).drop 1)).toList := by
    split
    · exact .none
    · next hne =>
      rw [String.toList_append, String.toList_ofList (l := (Nat.toDigits 10 d.digits).drop 1)]
      exact .digits ⟨fun heq ↦ hne (List.isEmpty_iff.mpr heq),
        fun c hc ↦ hdigits.digits c (List.mem_of_mem_drop hc)⟩
  have hexponent : IsExponent ('e' :: ((if true && decide (0 ≤ power) then "+" else "").toList ++
      (toString power).toList)) := by
    rcases Int.lt_or_le power 0 with hneg | hnonneg
    · rw [if_neg (by simpa using hneg), toString_of_neg hneg]
      show IsExponent ('e' :: (['-'] ++ Nat.toDigits 10 power.natAbs))
      exact .digits (.inr (.inr rfl)) (isDigits_toDigits power.natAbs)
    · obtain ⟨n, rfl⟩ := Int.eq_ofNat_of_zero_le hnonneg
      rw [if_pos (by simp), toString_ofNat]
      exact .digits (.inr (.inl rfl)) (isDigits_toDigits n)
  have hparts := Unsigned.parts hwhole hfraction hexponent
  rw [scientific]
  simpa [String.toList_append, List.append_assoc] using hparts

/-- The text of a decimal in a stored track is a number without its sign. -/
theorem unsigned_decimal (d : Decimal) : Unsigned (json.decimal d).toList := by
  rw [decimal]
  split
  · next h => exact unsigned_scientific (of_decide_eq_true (Bool.and_eq_true_iff.mp h).1) _
  · exact unsigned_positional d

theorem numeral_binary {format : BinaryFormat} {negative : Bool} {mantissa : Nat} {exponent : Int} :
    Numeral (json.binary format (.finite negative mantissa exponent)).toList := by
  rw [binary, String.toList_append]
  cases negative with
  | false => exact .unsigned (unsigned_decimal _)
  | true => exact .negative (unsigned_decimal _)

end NumberLayout

/-! ### What a numeral stands for -/

namespace JsonNumber

theorem le_ofDigitChars (ds : List Char) (n : Nat) : n ≤ Nat.ofDigitChars 10 ds n := by
  induction ds generalizing n with
  | nil => exact Nat.le_of_eq Nat.ofDigitChars_nil.symm
  | cons d ds ih =>
    rw [Nat.ofDigitChars_cons]
    exact Nat.le_trans (by omega) (ih _)

/-- Digits whose value fits 64 bits are all gathered. -/
theorem gather_of_lt (ds : List Char) (n : Nat) (h : Nat.ofDigitChars 10 ds n < 2 ^ 64) :
    gather n ds = (Nat.ofDigitChars 10 ds n, 0) := by
  induction ds generalizing n with
  | nil => rw [gather, Nat.ofDigitChars_nil]
  | cons d ds ih =>
    rw [Nat.ofDigitChars_cons] at h ⊢
    have hnext := Nat.lt_of_le_of_lt (le_ofDigitChars ds _) h
    rw [gather]
    exact (if_pos hnext).trans (ih _ h)

/-- Digits alone, and digits after a minus sign. -/
theorem ofLiteral_toDigits {n : Nat} (h : n < 2 ^ 64) (negative : Bool) :
    ofLiteral (.ofUnsigned negative (Nat.toDigits 10 n)) =
      if !negative then some (.whole n)
      else if n = 0 || 2 ^ 63 < n then some (.real (-n.toUInt64.toFloat))
      else some (.whole (-n)) := by
  obtain ⟨htake, hdrop, -⟩ := @JsonReader.IsDigits.takeWhile _ [] (JsonReader.isDigits_toDigits n) rfl
  rw [List.append_nil] at htake hdrop
  have hvalue : Nat.ofDigitChars 10 (Nat.toDigits 10 n) 0 = n := Nat.ofDigitChars_ten_toDigits
  have hgather := gather_of_lt (Nat.toDigits 10 n) 0 (by rwa [hvalue])
  rw [hvalue] at hgather
  rw [NumberLiteral.ofUnsigned, hdrop, htake, ofLiteral]
  simp only [NumberLiteral.ofTail, hgather]
  rfl

/-- **A whole number** of 64 bits is what its text stands for. -/
theorem ofString_toString {n : Int} (hlow : -2 ^ 63 ≤ n) (hhigh : n < 2 ^ 64) :
    ofString (toString n) = some (.whole n) := by
  rcases Int.lt_or_le n 0 with hneg | hnonneg
  · rw [ofString, toString_of_neg hneg, NumberLiteral.ofChars, ofLiteral_toDigits (by omega),
      if_neg (by decide), if_neg (by simp; omega)]
    congr 2
    omega
  · obtain ⟨m, rfl⟩ := Int.eq_ofNat_of_zero_le hnonneg
    have hunsigned : NumberLiteral.ofChars (Nat.toDigits 10 m) =
        .ofUnsigned false (Nat.toDigits 10 m) := by
      rw [NumberLiteral.ofChars]
      intro cs heq
      have hminus : '-' ∈ Nat.toDigits 10 m := heq ▸ List.mem_cons_self ..
      cases isDigit_of_mem_toDigits hminus
    rw [ofString, toString_ofNat, hunsigned, ofLiteral_toDigits (by omega), if_pos (by decide)]

end JsonNumber

end StepSequencer
