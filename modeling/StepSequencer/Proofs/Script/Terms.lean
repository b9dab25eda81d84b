import StepSequencer.Proofs.Number.Words
import StepSequencer.Script.Term

/-!
# What terms stand for

A term stands for a whole number at each step. Where two terms are compared by a condition on the
step, the condition says exactly what the comparison of the two whole numbers says. The order needs
no assumption for that. An equality may become a congruence, whose offset must then be added to the
step without wrapping.
-/

namespace StepSequencer

/-- The relation of whole numbers that an ordering operator asks for. -/
def OrderOp.Relates : OrderOp → Int → Int → Prop
  | .lt, m, n => m < n
  | .le, m, n => m ≤ n
  | .gt, m, n => n < m
  | .ge, m, n => n ≤ m

instance : (op : OrderOp) → (m n : Int) → Decidable (op.Relates m n)
  | .lt, m, n | .gt, n, m => inferInstanceAs (Decidable (m < n))
  | .le, m, n | .ge, n, m => inferInstanceAs (Decidable (m ≤ n))

theorem OrderOp.accepts_compare (op : OrderOp) (a b : Int64) :
    op.accepts (compare a b) = decide (op.Relates a.toInt b.toInt) := by
  rw [Bool.eq_iff_iff, decide_eq_true_iff]
  show op.accepts (compareOfLessAndEq a b) = true ↔ _
  unfold compareOfLessAndEq
  simp only [Int64.lt_iff_toInt_lt, ← Int64.toInt_inj]
  rcases Int.lt_trichotomy a.toInt b.toInt with hlt | heq | hgt
  · rw [if_pos hlt]
    cases op <;> simp [accepts, Relates] <;> omega
  · rw [if_neg (by omega), if_pos heq]
    cases op <;> simp [accepts, Relates] <;> omega
  · rw [if_neg (by omega), if_neg (by omega)]
    cases op <;> simp [accepts, Relates] <;> omega

namespace Script.Term

open Word (Holds IsSmall)

variable {x : Int64} {l r : Term} {c : Condition}

/-- The whole number that the term is at step `x`. -/
def value (x : Int64) : Term → Int
  | .const a => a.toInt
  | .step offset => x.toInt + offset.toInt
  | .residue offset modulus => (x.toInt + offset.toInt) % modulus.toInt

/-- A residue has a positive modulus. -/
def Proper : Term → Prop
  | .residue _ modulus => 0 < modulus.toInt
  | _ => True

/-- A congruence adds its offset to step `x` without wrapping. -/
def Unwrapped (x : Int64) : Condition → Prop
  | .congruent offset _ => Holds (x.toInt + offset.toInt)
  | _ => True

/-! ### Equality -/

theorem holds_congruent {offset modulus : Int64} (hpos : 0 < modulus.toInt)
    (hx : Holds (x.toInt + offset.toInt)) :
    (Condition.congruent offset modulus).holds x =
      decide ((x.toInt + offset.toInt) % modulus.toInt = 0) := by
  show (decide (0 < modulus) && (x + offset).toInt % modulus.toInt == 0) = _
  rw [Word.toInt_add hx, decide_eq_true (Word.pos_iff.mpr hpos), Bool.true_and]
  rfl

/-- A number leaves the rest `k` exactly if it leaves none once `k` is taken away. -/
theorem emod_sub_eq_zero_iff {n k m : Int} (hlow : 0 ≤ k) (hhigh : k < m) :
    (n - k) % m = 0 ↔ n % m = k := by
  rw [← Int.emod_eq_emod_iff_emod_sub_eq_zero, Int.emod_eq_of_lt hlow hhigh]

theorem equalsConst?_holds {t : Term} {k : Int64} (ht : t.Proper) (h : t.equalsConst? k = some c)
    (hc : Unwrapped x c) : c.holds x = decide (t.value x = k.toInt) := by
  rcases t with a | offset | ⟨offset, modulus⟩
  · obtain rfl := Option.some.inj h
    exact Word.beq_eq a k
  · obtain ⟨n, hn, rfl⟩ := Option.map_eq_some_iff.mp h
    have hbound : n.toInt = k.toInt - offset.toInt := Word.sub?_eq_some_iff.mp hn
    show (x == n) = decide (x.toInt + offset.toInt = k.toInt)
    rw [Word.beq_eq, decide_eq_decide]
    omega
  · have hpos : 0 < modulus.toInt := ht
    rw [equalsConst?] at h
    split at h
    · next hk =>
      rw [Bool.and_eq_true, decide_eq_true_iff, decide_eq_true_iff, Word.nonneg_iff,
        Int64.lt_iff_toInt_lt] at hk
      obtain ⟨n, hn, rfl⟩ := Option.map_eq_some_iff.mp h
      have hoffset : n.toInt = offset.toInt - k.toInt := Word.sub?_eq_some_iff.mp hn
      have hsum : x.toInt + n.toInt = x.toInt + offset.toInt - k.toInt := by omega
      rw [holds_congruent hpos hc, hsum, decide_eq_decide]
      exact emod_sub_eq_zero_iff hk.1 hk.2
    · next hk =>
      -- a residue is never outside its range
      obtain rfl := Option.some.inj h
      have hlow := Int.emod_nonneg (x.toInt + offset.toInt) (Int.ne_of_gt hpos)
      have hhigh := Int.emod_lt_of_pos (x.toInt + offset.toInt) hpos
      refine (decide_eq_false fun heq ↦ hk ?_).symm
      have hvalue : (x.toInt + offset.toInt) % modulus.toInt = k.toInt := heq
      rw [Bool.and_eq_true, decide_eq_true_iff, decide_eq_true_iff, Word.nonneg_iff,
        Int64.lt_iff_toInt_lt]
      omega

/-- **An equality of terms** that is a condition holds exactly where the terms are equal. -/
theorem equality?_holds (hl : l.Proper) (hr : r.Proper) (h : l.equality? r = some c)
    (hc : Unwrapped x c) : c.holds x = decide (l.value x = r.value x) := by
  unfold equality? at h
  split at h
  · exact equalsConst?_holds hl h hc
  · rw [equalsConst?_holds hr h hc, decide_eq_decide]
    exact eq_comm
  · next a b =>
    obtain rfl := Option.some.inj h
    show (a == b) = decide (x.toInt + a.toInt = x.toInt + b.toInt)
    rw [Word.beq_eq, decide_eq_decide]
    omega
  · cases h

/-! ### Order -/

theorem bound_holds (op : OrderOp) (x n : Int64) :
    (bound op n).holds x = decide (op.Relates x.toInt n.toInt) := by
  cases op with
  | lt => exact decide_eq_decide.mpr Int64.lt_iff_toInt_lt
  | le => exact decide_eq_decide.mpr Int64.le_iff_toInt_le
  | gt => exact decide_eq_decide.mpr Int64.lt_iff_toInt_lt
  | ge => exact decide_eq_decide.mpr Int64.le_iff_toInt_le

/-- Adding the same to both sides changes no order. -/
theorem relates_add_iff (op : OrderOp) (k m n : Int) :
    op.Relates (k + m) (k + n) ↔ op.Relates m n := by
  cases op <;> simp only [OrderOp.Relates] <;> omega

theorem relates_flip_iff (op : OrderOp) (m n : Int) : (flip op).Relates m n ↔ op.Relates n m := by
  cases op <;> rfl

/-- A shifted step against a number stands as the step against the difference does. -/
theorem relates_shifted_iff (op : OrderOp) {offset k n : Int64} (h : Word.sub? k offset = some n) :
    op.Relates x.toInt n.toInt ↔ op.Relates (x.toInt + offset.toInt) k.toInt := by
  have hbound : k.toInt = offset.toInt + n.toInt := by
    have := Word.sub?_eq_some_iff.mp h
    omega
  rw [hbound, Int.add_comm x.toInt, relates_add_iff]

/-- **An order of terms** that is a condition holds exactly where the terms stand in that order. -/
theorem ordering?_holds {op : OrderOp} (h : l.ordering? op r = some c) :
    c.holds x = decide (op.Relates (l.value x) (r.value x)) := by
  unfold ordering? at h
  split at h
  · next a b =>
    obtain rfl := Option.some.inj h
    exact op.accepts_compare a b
  · next a b =>
    obtain rfl := Option.some.inj h
    refine (op.accepts_compare a b).trans (decide_eq_decide.mpr ?_)
    exact (relates_add_iff op x.toInt a.toInt b.toInt).symm
  · next offset k =>
    obtain ⟨n, hn, rfl⟩ := Option.map_eq_some_iff.mp h
    rw [bound_holds, decide_eq_decide]
    exact relates_shifted_iff op hn
  · next k offset =>
    obtain ⟨n, hn, rfl⟩ := Option.map_eq_some_iff.mp h
    -- the number on the left: the same comparison the other way round
    rw [bound_holds, decide_eq_decide]
    exact (relates_shifted_iff (flip op) hn).trans (relates_flip_iff op _ _)
  · cases h

end Script.Term

end StepSequencer
