import StepSequencer.Number.Reading

/-!
# Runs of digits

The decimal digits of a number are digits, do not begin with a zero unless the number is zero, and
read back as the number. The text of a whole number is its digits, after a minus sign if it is
negative.
-/

namespace StepSequencer

/-- A run of characters of a class, before a text that does not go on with it. -/
theorem takeWhile_append_of_head? {p : Char → Bool} {cs r : List Char}
    (hcs : ∀ c ∈ cs, p c = true) (hrest : r.head?.all (!p ·) = true) :
    (cs ++ r).takeWhile p = cs ∧ (cs ++ r).dropWhile p = r := by
  rw [List.takeWhile_append_of_pos hcs, List.dropWhile_append_of_pos hcs]
  rcases r with - | ⟨c, r⟩
  · exact ⟨List.append_nil cs, rfl⟩
  · have hc : p c = false := (Bool.not_eq_true' _).mp hrest
    rw [List.takeWhile_cons_of_neg (by rw [hc]; decide), List.append_nil,
      List.dropWhile_cons_of_neg (by rw [hc]; decide)]
    exact ⟨rfl, rfl⟩

theorem isDigit_of_mem_toDigits {n : Nat} {c : Char} (h : c ∈ Nat.toDigits 10 n) :
    c.isDigit = true :=
  Nat.isDigit_of_mem_toDigits (by decide) (by decide) h

theorem readDigits_toDigits (n : Nat) : readDigits (Nat.toDigits 10 n) = n :=
  Nat.ofDigitChars_ten_toDigits

/-- Each zero after the digits is a factor of ten. -/
theorem readDigits_append_zeros (digits : List Char) (n : Nat) :
    readDigits (digits ++ List.replicate n '0') = readDigits digits * 10 ^ n := by
  induction n with
  | zero => rw [List.replicate_zero, List.append_nil, Nat.pow_zero, Nat.mul_one]
  | succ n ih =>
    have hlast : readDigits (digits ++ List.replicate n '0' ++ ['0']) =
        10 * readDigits (digits ++ List.replicate n '0') := List.foldl_append
    rw [List.replicate_succ', ← List.append_assoc, hlast, ih, Nat.pow_succ, Nat.mul_comm 10,
      Nat.mul_assoc]

/-- The digits of a positive number do not begin with a zero. -/
theorem head?_toDigits {n : Nat} (h : n ≠ 0) : (Nat.toDigits 10 n).head? ≠ some '0' := by
  induction n using Nat.strongRecOn with
  | ind n ih =>
    by_cases hsmall : n < 10
    · rw [Nat.toDigits_of_lt_base hsmall]
      exact fun heq ↦ h (Nat.digitChar_eq_zero.mp (Option.some.inj heq))
    · have hhead := ih (n / 10) (by omega) (by omega)
      rw [Nat.toDigits_of_base_le (by decide) (by omega)]
      rcases hds : Nat.toDigits 10 (n / 10) with - | ⟨c, cs⟩
      · exact absurd hds Nat.toDigits_ne_nil
      · rwa [hds] at hhead

theorem toString_ofNat (n : Nat) : (toString (n : Int)).toList = Nat.toDigits 10 n := Nat.toList_repr

theorem toString_of_neg {n : Int} (h : n < 0) :
    (toString n).toList = '-' :: Nat.toDigits 10 n.natAbs := by
  obtain ⟨m, rfl⟩ := Int.eq_negSucc_of_lt_zero h
  show ("-" ++ Nat.repr (m + 1)).toList = _
  rw [String.toList_append, Nat.toList_repr]
  rfl

end StepSequencer
