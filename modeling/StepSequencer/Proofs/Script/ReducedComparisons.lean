import StepSequencer.Proofs.Rule.WholeArithmetic
import StepSequencer.Proofs.Script.Forms

/-!
# Reduced comparisons against plain evaluation

A comparison of two terms becomes a condition on the step where it can. The condition holds exactly
where the whole numbers stand in the relation asked for (`compared?_holds`). At most one number is
computed for it, a difference of two parameters. It is never wrapped: where no word holds it, there
is no condition (`compared?_differenceIsExact`).

What terms stand for is what plain evaluation of their expressions gives, with one exception. The
residue of a shifted step is always a word, but plain evaluation computes it through a multiple of
the modulus, and goes on with a float where that is no word (`evaluatesTo_iff`).
-/

namespace StepSequencer

/-- The number that a condition on the step has been given, if it is one with a number. -/
def Condition.number? : Condition → Option Int64
  | .congruent offset _ => some offset
  | .equals bound | .lessThan bound | .atMost bound | .greaterThan bound | .atLeast bound =>
    some bound
  | _ => none

/-- The relation of whole numbers that a comparison asks for. -/
def CmpOp.Relates : CmpOp → Int → Int → Prop
  | .eq, m, n => m = n
  | .order op, m, n => op.Relates m n

namespace Script

open Attempts Host Word

namespace Term

variable {x : Int64} {l r t : Term} {c : Condition}

/-- **A comparison of terms** that is a condition holds exactly where their values compare so. -/
theorem compared?_holds {op : CmpOp} (hl : l.Proper) (hr : r.Proper) (h : compared? op l r = some c)
    (hc : Unwrapped x c) : c.holds x = true ↔ op.Relates (l.value x) (r.value x) := by
  cases op with
  | eq => rw [equality?_holds hl hr h hc, decide_eq_true_iff, CmpOp.Relates]
  | order op => rw [ordering?_holds h, decide_eq_true_iff, CmpOp.Relates]

/-! ### The numbers in conditions -/

/-- Whether a comparison of such terms is a simple condition, were there no bounds to words. -/
def isComparable : CmpOp → Term → Term → Bool
  | .eq, .const _, _ | .eq, _, .const _ | .eq, .step _, .step _ => true
  | .order _, .residue .., _ | .order _, _, .residue .. => false
  | .order _, _, _ => true
  | _, _, _ => false

/-- The difference that the condition is about, if it is about one. A residue is compared with a
number only if it can be that number. -/
def difference? : CmpOp → Term → Term → Option Int
  | _, .step offset, .const k | _, .const k, .step offset => some (k.toInt - offset.toInt)
  | .eq, .residue offset modulus, .const k | .eq, .const k, .residue offset modulus =>
    if 0 ≤ k && k < modulus then some (offset.toInt - k.toInt) else none
  | _, _, _ => none

/-- The comparison is a condition unless its difference is no word, and then with this difference.
-/
structure DifferenceIsExact (op : CmpOp) (l r : Term) : Prop where
  none_iff : compared? op l r = none ↔
    isComparable op l r = false ∨ ∃ n ∈ difference? op l r, ¬Holds n
  number : ∀ c, compared? op l r = some c → c.number?.map Int64.toInt = difference? op l r

theorem DifferenceIsExact.of_const {op : CmpOp} {b : Bool} (h : compared? op l r = some (.const b))
    (hcomparable : isComparable op l r = true) (hnone : difference? op l r = none) :
    DifferenceIsExact op l r where
  none_iff := by simp [h, hcomparable, hnone]
  number c hc := by
    obtain rfl := Option.some.inj (h.symm.trans hc)
    rw [hnone]
    rfl

theorem DifferenceIsExact.of_map {op : CmpOp} {n : Int} {make : Int64 → Condition}
    (h : compared? op l r = (ofInt? n).map make) (hmake : ∀ w, (make w).number? = some w)
    (hcomparable : isComparable op l r = true) (hdifference : difference? op l r = some n) :
    DifferenceIsExact op l r where
  none_iff := by simp [h, hcomparable, hdifference, ofInt?_eq_none_iff]
  number c hc := by
    obtain ⟨w, hw, rfl⟩ := Option.map_eq_some_iff.mp (h.symm.trans hc)
    rw [hmake, hdifference, Option.map_some, ofInt?_eq_some_iff.mp hw]

theorem DifferenceIsExact.of_none {op : CmpOp} (h : compared? op l r = none)
    (hcomparable : isComparable op l r = false) : DifferenceIsExact op l r where
  none_iff := by simp [h, hcomparable]
  number c hc := by cases h.symm.trans hc

theorem number?_bound (op : OrderOp) (n : Int64) : (bound op n).number? = some n := by
  cases op <;> rfl

/-- **No comparison overflows**, whatever the parameters. -/
theorem compared?_differenceIsExact (op : CmpOp) (l r : Term) : DifferenceIsExact op l r := by
  -- a residue on either side of an equality
  have hresidue {l r : Term} {offset modulus k : Int64}
      (heq : compared? .eq l r = (residue offset modulus).equalsConst? k)
      (hcomparable : isComparable .eq l r = true)
      (hdifference : difference? .eq l r =
        if 0 ≤ k && k < modulus then some (offset.toInt - k.toInt) else none) :
      DifferenceIsExact .eq l r := by
    rw [equalsConst?] at heq
    split at heq
    · next hk => exact .of_map heq (fun _ ↦ rfl) hcomparable (hdifference.trans (if_pos hk))
    · next hk => exact .of_const heq hcomparable (hdifference.trans (if_neg hk))
  cases op with
  | eq =>
    rcases l with a | a | ⟨a, m⟩ <;> rcases r with b | b | ⟨b, n⟩
    case const.const | step.step => exact .of_const rfl rfl rfl
    case const.step | step.const => exact .of_map rfl (fun _ ↦ rfl) rfl rfl
    case const.residue | residue.const => exact hresidue rfl rfl rfl
    all_goals exact .of_none rfl rfl
  | order op =>
    rcases l with a | a | ⟨a, m⟩ <;> rcases r with b | b | ⟨b, n⟩
    case const.const | step.step => exact .of_const rfl rfl rfl
    case const.step | step.const => exact .of_map rfl (number?_bound _) rfl rfl
    all_goals exact .of_none rfl rfl

/-! ### Plain evaluation -/

/-- The multiple of the modulus that is taken away for a residue is a word. -/
def RemainderFits (x : Int64) : Term → Prop
  | .residue offset modulus => Holds (modulus.toInt * ((x.toInt + offset.toInt) / modulus.toInt))
  | _ => True

/-- Only the multiple may be no word: a quotient by a positive number always is one. -/
theorem exists_floorMod?_iff_of_pos {m modulus : Int64} (hpos : 0 < modulus.toInt) :
    (∃ k, floorMod? m modulus = some k) ↔ Holds (modulus.toInt * (m.toInt / modulus.toInt)) := by
  have hdivides : floorDiv? m modulus ≠ none := fun hnone ↦ by
    rcases floorDiv?_eq_none_iff.mp hnone with rfl | ⟨-, rfl⟩ <;> exact absurd hpos (by decide)
  obtain ⟨q, hq⟩ := Option.ne_none_iff_exists'.mp hdivides
  obtain ⟨hzero, hquotient⟩ := toInt_of_floorDiv? hq
  rw [exists_floorMod?_iff hzero, Word.RemainderFits, ← hquotient, and_iff_right (holds_toInt q),
    hquotient, Int.fdiv_eq_ediv_of_nonneg _ (Int.le_of_lt hpos)]

/-- What two terms combine to is found, if its exact value is small, unless a remainder does not
fit. -/
theorem Combined.exists_onWords?_iff {op : ArithOp} {m n : Int64} (h : Combined op l r t)
    (hl : m.toInt = l.value x) (hr : n.toInt = r.value x)
    (hsmall : HasSmallResult op m.toInt n.toInt) :
    (∃ k, op.onWords? m n = some k) ↔ t.RemainderFits x := by
  have hexact := h.exactResult? x
  rw [← hl, ← hr] at hexact
  have hholds : Holds (t.value x) := (hsmall _ hexact).holds
  cases h with
  | computed hk =>
    obtain rfl := Int64.toInt_inj.mp hl
    obtain rfl := Int64.toInt_inj.mp hr
    exact ⟨fun _ ↦ trivial, fun _ ↦ ⟨_, hk⟩⟩
  | addConst | constAdd =>
    obtain ⟨k, hk, -⟩ := onWords?_of_holds (.inl rfl) hexact hholds
    exact ⟨fun _ ↦ trivial, fun _ ↦ ⟨k, hk⟩⟩
  | subConst =>
    obtain ⟨k, hk, -⟩ := onWords?_of_holds (.inr rfl) hexact hholds
    exact ⟨fun _ ↦ trivial, fun _ ↦ ⟨k, hk⟩⟩
  | @residue c modulus hpos =>
    obtain rfl := Int64.toInt_inj.mp hr
    have hvalue : m.toInt = x.toInt + c.toInt := hl
    rw [RemainderFits, ← hvalue]
    exact exists_floorMod?_iff_of_pos hpos

/-- Terms are combined of constants and shifted steps only. -/
theorem Combined.remainderFits {op : ArithOp} (h : Combined op l r t) :
    l.RemainderFits x ∧ r.RemainderFits x := by
  cases h <;> exact ⟨trivial, trivial⟩

end Term

variable {param : Option String} {x : Int64}

/-- An expression that is a term is one in the step. -/
theorem stepExpr_of_ofExpr {e : Expr} {t : Term} (h : Term.ofExpr param e = .ok t) :
    ∃ s, Body.stepExpr param e = .ok s := by
  simp only [Body.stepExpr_eq_ok_iff]
  replace h := Term.form_of_ofExpr h
  induction h with
  | const n => exact ⟨_, .int n⟩
  | step hname => exact ⟨_, .step hname⟩
  | neg _ _ ih =>
    obtain ⟨o, ho⟩ := ih
    exact ⟨_, .neg ho⟩
  | binary _ _ _ ihl ihr =>
    obtain ⟨l, hl⟩ := ihl
    obtain ⟨r, hr⟩ := ihr
    exact ⟨_, .binary hl hr⟩

/-- The host's value is the one that the term has, where the remainder fits. -/
theorem eval_ofExpr_iff {e : Expr} {t : Term} (h : Term.ofExpr param e = .ok t)
    (hsmall : EachOperation param HasSmallResult (.num (.int x)) e) :
    (∃ n : Int64, eval param (.num (.int x)) e = some (.num (.int n)) ∧ n.toInt = t.value x) ↔
      t.RemainderFits x := by
  replace h := Term.form_of_ofExpr h
  induction h with
  | const n => exact ⟨fun _ ↦ trivial, fun _ ↦ ⟨n, rfl, rfl⟩⟩
  | step hname => exact ⟨fun _ ↦ trivial, fun _ ↦ ⟨x, if_pos hname, toInt_eq_value_step x⟩⟩
  | neg _ hneg ih =>
    obtain ⟨n, hn, hvalue⟩ := (ih hsmall.1).mpr trivial
    obtain rfl := Int64.toInt_inj.mp hvalue
    exact ⟨fun _ ↦ trivial, fun _ ↦ ⟨_, eval_neg hn hneg, rfl⟩⟩
  | binary _ _ hcombined ihl ihr =>
    obtain ⟨m, hm, hmvalue⟩ := (ihl hsmall.1).mpr hcombined.remainderFits.1
    obtain ⟨n, hn, hnvalue⟩ := (ihr hsmall.2.1).mpr hcombined.remainderFits.2
    rw [← hcombined.exists_onWords?_iff hmvalue hnvalue (hsmall.2.2 m n hm hn)]
    constructor
    · rintro ⟨k, hk, -⟩
      obtain ⟨m', n', hm', hn', hwords⟩ := operands_of_eval hk
      obtain rfl := Num.int.inj (Value.num.inj (Option.some.inj (hm.symm.trans hm')))
      obtain rfl := Num.int.inj (Value.num.inj (Option.some.inj (hn.symm.trans hn')))
      exact ⟨k, hwords⟩
    · rintro ⟨k, hk⟩
      have hexact := exactResult?_of_onWords? hk
      rw [hmvalue, hnvalue, hcombined.exactResult? x] at hexact
      exact ⟨k, eval_arith hm hn (ArithOp.apply_of_onWords? hk), (Option.some.inj hexact).symm⟩

/-- Plain evaluation of the expression at step `x` gives the whole number `n`. -/
def EvaluatesTo (param : Option String) (x : Int64) (e : Expr) (n : Int) : Prop :=
  ∃ (s : StepExpr) (w : Int64),
    Body.stepExpr param e = .ok s ∧ s.eval x = some (.int w) ∧ w.toInt = n

/-- **A term is what plain evaluation gives** exactly where its remainder fits, if it has one. -/
theorem evaluatesTo_iff {e : Expr} {t : Term} (h : Term.ofExpr param e = .ok t)
    (hsmall : EachOperation param HasSmallResult (.num (.int x)) e) :
    EvaluatesTo param x e (t.value x) ↔ t.RemainderFits x := by
  obtain ⟨s, hs⟩ := stepExpr_of_ofExpr h
  rw [← eval_ofExpr_iff h hsmall, stepExpr_eval hs]
  constructor
  · rintro ⟨s', w, hs', hw, hvalue⟩
    obtain rfl := Except.ok.inj (hs.symm.trans hs')
    exact ⟨w, congrArg (Option.map Value.num) hw, hvalue⟩
  · rintro ⟨n, hn, hvalue⟩
    obtain ⟨k, hk, hnum⟩ := Option.map_eq_some_iff.mp hn
    exact ⟨s, n, hs, hk.trans (congrArg some (Value.num.inj hnum)), hvalue⟩

/-- **Reduced comparisons agree with plain evaluation.** No comparison of terms overflows. A
comparison that is a condition holds exactly where the values of the terms compare so, if its
congruence does not wrap. And a term is what plain evaluation of its expression gives while the
operations on whole numbers have small results, except where the multiple that is taken away for a
residue is no word. -/
theorem reduced_agrees (param : Option String) (x : Int64) :
    (∀ op l r, Term.DifferenceIsExact op l r) ∧
    (∀ op l r c, l.Proper → r.Proper → Term.compared? op l r = some c → Term.Unwrapped x c →
      (c.holds x = true ↔ op.Relates (l.value x) (r.value x))) ∧
    ∀ e t, Term.ofExpr param e = .ok t → EachOperation param HasSmallResult (.num (.int x)) e →
      (EvaluatesTo param x e (t.value x) ↔ t.RemainderFits x) :=
  ⟨Term.compared?_differenceIsExact, fun _ _ _ _ hl hr ↦ Term.compared?_holds hl hr,
    fun _ _ ↦ evaluatesTo_iff⟩

/-- The remainder of the step by a small number is small, at every step. -/
theorem hasSmallResult_stepRemainder {name : String} {modulus : Int64} (hpos : 0 < modulus.toInt)
    (hsmall : IsSmall modulus.toInt) :
    EachOperation (some name) HasSmallResult (.num (.int x))
      (.binary (.arith .rem) (.var name) (.int modulus)) := by
  refine ⟨trivial, trivial, fun m n _ hn k hk ↦ ?_⟩
  obtain rfl := Num.int.inj (Value.num.inj (Option.some.inj hn))
  obtain rfl := Option.some.inj ((if_neg (Int.ne_of_gt hpos)).symm.trans hk)
  have hlow := Int.fmod_nonneg_of_pos m.toInt hpos
  have hhigh := Int.fmod_lt_of_pos m.toInt hpos
  unfold IsSmall at hsmall ⊢
  omega

/-- The third step of four, at step 6: the condition, and the residue that it is about. -/
theorem reduced_agrees_thirdOfFour :
    let l : Term := .residue 0 4
    let c : Condition := .congruent (-2) 4
    let e : Expr := .binary (.arith .rem) (.var "i") (.int 4)
    (l.Proper ∧ (Term.const 2).Proper ∧ Term.compared? .eq l (.const 2) = some c ∧
      Term.Unwrapped 6 c ∧ (c.holds 6 = true ↔ l.value 6 = 2)) ∧
    (Term.ofExpr (some "i") e = .ok l ∧
      EachOperation (some "i") HasSmallResult (.num (.int 6)) e ∧ l.RemainderFits 6 ∧
      EvaluatesTo (some "i") 6 e 2) := by
  intro l c e
  obtain ⟨-, hholds, hvalue⟩ := reduced_agrees (some "i") 6
  have hproper : l.Proper := show 0 < (4 : Int64).toInt by decide
  have hc : Term.Unwrapped 6 c := show Holds ((6 : Int64).toInt + (-2 : Int64).toInt) by decide
  have hfits : l.RemainderFits 6 := show Holds (4 * ((6 + 0) / 4)) by decide
  have hsmall : EachOperation (some "i") HasSmallResult (.num (.int 6)) e :=
    hasSmallResult_stepRemainder (by decide) (by decide)
  exact ⟨⟨hproper, trivial, rfl, hc, hholds .eq l (.const 2) c hproper trivial rfl hc⟩,
    rfl, hsmall, hfits, (hvalue e l rfl hsmall).mpr hfits⟩

/-- **A residue that plain evaluation does not find.** At the step after the least, the remainder of
the step by 3 is 2, and no operation has a large result. But three times the quotient is no word. -/
theorem not_reduced_agrees :
    let x : Int64 := -9223372036854775807
    let t : Term := .residue 0 3
    let e : Expr := .binary (.arith .rem) (.var "i") (.int 3)
    Term.ofExpr (some "i") e = .ok t ∧ t.Proper ∧ Holds (x.toInt + (0 : Int64).toInt) ∧
      t.value x = 2 ∧ EachOperation (some "i") HasSmallResult (.num (.int x)) e ∧
      ¬EvaluatesTo (some "i") x e (t.value x) := by
  intro x t e
  have hsmall : EachOperation (some "i") HasSmallResult (.num (.int x)) e :=
    hasSmallResult_stepRemainder (by decide) (by decide)
  have hfits : ¬t.RemainderFits x :=
    show ¬Holds ((3 : Int64).toInt * ((x.toInt + (0 : Int64).toInt) / (3 : Int64).toInt)) by decide
  have hvalue : t.value x = 2 :=
    show (x.toInt + (0 : Int64).toInt) % (3 : Int64).toInt = 2 by decide
  exact ⟨rfl, show 0 < (3 : Int64).toInt by decide, by decide, hvalue, hsmall,
    mt (evaluatesTo_iff rfl hsmall).mp hfits⟩

end Script

end StepSequencer
