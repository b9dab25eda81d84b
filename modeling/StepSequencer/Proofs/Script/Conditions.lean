import StepSequencer.Proofs.Script.Arithmetic
import StepSequencer.Proofs.Script.Forms

/-!
# Conditions in function bodies

The condition that an expression becomes holds at a step exactly where the host counts the value of
the expression as true. That is `condition_holds`, by recursion over the expression; the sections
before it settle one way of comparing each.

An equality takes one of five forms (`Body.EqualityForm`): a condition on terms, a comparison of
expressions in the step, the equivalence of two conditions, a plain falsehood for sides of different
kinds, or the comparison of two literals. `equality_holds` goes through them.
-/

namespace StepSequencer.Script

open Attempts Host Word

variable {param : Option String} {x : Int64} {lhs rhs : Expr} {c : Condition}

/-! ### Terms against the host -/

theorem eq_holds_int (m n : Int64) :
    CmpOp.eq.holds (.int m) (.int n) = decide (m.toInt = n.toInt) := by
  show (compare m n == .eq) = _
  rw [Bool.eq_iff_iff, beq_iff_eq, decide_eq_true_iff, Std.LawfulEqOrd.compare_eq_iff_eq,
    Int64.toInt_inj]

/-- Terms whose residues have small sides are equal where a congruence does not wrap. -/
theorem unwrapped_of_isTame {l r : Term} (hl : l.IsTame x) (hr : r.IsTame x)
    (h : l.equality? r = some c) : Term.Unwrapped x c := by
  have hconst {t : Term} {k : Int64} (ht : t.IsTame x) (h : t.equalsConst? k = some c) :
      Term.Unwrapped x c := by
    rcases t with a | offset | ⟨offset, modulus⟩
    · obtain rfl := Option.some.inj h
      trivial
    · obtain ⟨n, -, rfl⟩ := Option.map_eq_some_iff.mp h
      trivial
    · rw [Term.equalsConst?] at h
      split at h
      · next hk =>
        rw [Bool.and_eq_true, decide_eq_true_iff, decide_eq_true_iff, nonneg_iff,
          Int64.lt_iff_toInt_lt] at hk
        obtain ⟨n, hn, rfl⟩ := Option.map_eq_some_iff.mp h
        have hoffset : n.toInt = offset.toInt - k.toInt := sub?_eq_some_iff.mp hn
        obtain ⟨hsum, hmodulus, -⟩ := ht
        show Holds (x.toInt + n.toInt)
        unfold IsSmall at hsum hmodulus
        unfold Holds
        omega
      · obtain rfl := Option.some.inj h
        trivial
  unfold Term.equality? at h
  split at h
  · exact hconst hl h
  · exact hconst hr h
  · obtain rfl := Option.some.inj h
    trivial
  · cases h

/-! ### Orderings -/

theorem compare_holds (op : CmpOp) (l r : StepExpr) :
    (Condition.compare op l r).holds x = compared op (l.eval x) (r.eval x) := rfl

/-- **An ordering** holds where the host's numbers stand in that order. -/
theorem ordering_holds {op : OrderOp} (h : Body.ordering param op lhs rhs = .ok c)
    (hlt : EachOperation param IsTameOperation (.num (.int x)) lhs)
    (hrt : EachOperation param IsTameOperation (.num (.int x)) rhs) :
    c.holds x = compared (.order op) ((eval param (.num (.int x)) lhs).bind Value.number?)
      ((eval param (.num (.int x)) rhs).bind Value.number?) := by
  cases Body.form_of_ordering h with
  | terms hl hr hc =>
    obtain ⟨m, hm, hlstands⟩ := ofExpr_stands hl hlt
    obtain ⟨n, hn, hrstands⟩ := ofExpr_stands hr hrt
    rw [Term.ordering?_holds hc, ← hlstands.value, ← hrstands.value, hm, hn]
    exact (op.accepts_compare m n).symm
  | arithmetic ha hb =>
    rw [Condition.comparison_holds, compare_holds, stepExpr_eval ha, stepExpr_eval hb,
      number?_map_num, number?_map_num]

/-! ### Properties -/

theorem compared_eq_int (m n : Int64) :
    compared .eq (some (.int m)) (some (.int n)) = decide (m.toInt = n.toInt) := eq_holds_int m n

theorem compared_order_int (op : OrderOp) (m n : Int64) :
    compared (.order op) (some (.int m)) (some (.int n)) = decide (op.Relates m.toInt n.toInt) :=
  op.accepts_compare m n

/-- The remainder of a small number by two. -/
theorem rem_two {n : Int64} (hn : IsSmall n.toInt) :
    ∃ r, ArithOp.rem.apply (.int n) (.int 2) = some (.int r) ∧ r.toInt = n.toInt % 2 := by
  obtain ⟨r, hr, hvalue⟩ := floorMod?_of_small (m := 2) hn ⟨by decide, by decide⟩ (by decide)
  exact ⟨r, ArithOp.apply_of_onWords? hr, hvalue⟩

/-- The bound that a property of the shifted step puts on the step. -/
theorem toInt_of_granted_neg {offset shift : Int64}
    (h : Body.granted .negation (neg? offset) = .ok shift) : shift.toInt = -offset.toInt :=
  neg?_eq_some_iff.mp (granted_eq_ok_iff.mp h)

/-- A property of the shifted step is that of the host's number. -/
theorem shiftedProperty?_holds {offset n : Int64} {name : String}
    (h : Body.shiftedProperty? offset name = .ok (some c)) (hn : Stands x (.step offset) n)
    (hparity : name ∈ ["even?", "odd?"] → IsSmall n.toInt) :
    property (some (.int n)) name = some (c.holds x) := by
  have hvalue : n.toInt = x.toInt + offset.toInt := hn.value
  have hzero : (0 : Int64).toInt = 0 := Int64.toInt_zero
  unfold Body.shiftedProperty? at h
  split at h
  · -- `even?`
    have hsmall := hparity (by decide)
    obtain ⟨r, hr, hrest⟩ := rem_two hsmall
    obtain rfl := Option.some.inj (Except.ok.inj h)
    show some (compared .eq (ArithOp.rem.apply (.int n) (.int 2)) (some (.int 0))) = _
    rw [hr, compared_eq_int, hrest, hvalue,
      Term.holds_congruent (by decide) (hvalue ▸ hsmall.holds)]
    rfl
  · -- `odd?`: the step after it is even
    have hsmall := hparity (by decide)
    obtain ⟨r, hr, hrest⟩ := rem_two hsmall
    obtain ⟨next, hnext, hc⟩ := map_eq_ok_iff.mp h
    obtain rfl := Option.some.inj hc
    have hsum : next.toInt = offset.toInt + 1 := add?_eq_some_iff.mp (granted_eq_ok_iff.mp hnext)
    have htwo : (2 : Int64).toInt = 2 := rfl
    have hone : (1 : Int64).toInt = 1 := rfl
    have hholds : Holds (x.toInt + next.toInt) := by
      unfold IsSmall at hsmall
      unfold Holds
      omega
    show some (compared .eq (ArithOp.rem.apply (.int n) (.int 2)) (some (.int 1))) = _
    rw [hr, compared_eq_int, Term.holds_congruent (by decide) hholds, Option.some.injEq,
      decide_eq_decide, htwo, hone]
    omega
  · -- `zero?`
    obtain ⟨shift, hshift, hc⟩ := map_eq_ok_iff.mp h
    obtain rfl := Option.some.inj hc
    have hneg := toInt_of_granted_neg hshift
    show some (compared .eq (some (.int n)) (some (.int 0))) = some (x == shift)
    rw [compared_eq_int, beq_eq, Option.some.injEq, decide_eq_decide, hzero]
    omega
  · -- `positive?`
    obtain ⟨shift, hshift, hc⟩ := map_eq_ok_iff.mp h
    obtain rfl := Option.some.inj hc
    have hneg := toInt_of_granted_neg hshift
    show some (compared (.order .gt) (some (.int n)) (some (.int 0))) = some (decide (shift < x))
    rw [compared_order_int, Option.some.injEq, decide_eq_decide, Int64.lt_iff_toInt_lt, hzero]
    show 0 < n.toInt ↔ _
    omega
  · -- `negative?`
    obtain ⟨shift, hshift, hc⟩ := map_eq_ok_iff.mp h
    obtain rfl := Option.some.inj hc
    have hneg := toInt_of_granted_neg hshift
    show some (compared (.order .lt) (some (.int n)) (some (.int 0))) = some (decide (x < shift))
    rw [compared_order_int, Option.some.injEq, decide_eq_decide, Int64.lt_iff_toInt_lt, hzero]
    show n.toInt < 0 ↔ _
    omega
  · cases Except.ok.inj h

/-- A property of an expression in the step is that of the host's number. -/
theorem property?_holds {e : StepExpr} {name : String} (h : Body.property? e name = some c) :
    property (e.eval x) name = some (c.holds x) := by
  unfold Body.property? at h
  split at h
  case h_6 => cases h
  all_goals
    obtain rfl := Option.some.inj h
    rw [Condition.comparison_holds, compare_holds]
    rfl

/-- **A property** holds where it does for the host's number. -/
theorem property_holds {receiver : Expr} {name : String}
    (h : Body.property param receiver name = .ok c)
    (htame : EachOperation param IsTameOperation (.num (.int x)) receiver)
    (hparity : name ∈ ["even?", "odd?"] → ∀ n, eval param (.num (.int x)) receiver =
      some (.num (.int n)) → IsSmall n.toInt) :
    property ((eval param (.num (.int x)) receiver).bind Value.number?) name =
      some (c.holds x) := by
  obtain ⟨t, ht, h⟩ := bind_eq_ok_iff.mp h
  obtain ⟨shifted?, hshifted, h⟩ := bind_eq_ok_iff.mp h
  split at h
  · next c' =>
    obtain rfl := Except.ok.inj h
    unfold Body.termProperty? at hshifted
    split at hshifted
    · next offset =>
      obtain ⟨n, hn, hstands⟩ := ofExpr_stands (term?_eq_some_iff.mp ht) htame
      have hsmall := fun hname ↦ hparity hname n hn
      rw [hn]
      exact shiftedProperty?_holds hshifted hstands hsmall
    · cases Except.ok.inj hshifted
  · obtain ⟨e, he, h⟩ := bind_eq_ok_iff.mp h
    split at h
    · next c' hc =>
      obtain rfl := Except.ok.inj h
      rw [stepExpr_eval (Body.arithmetic_eq_ok_iff.mp he), number?_map_num]
      exact property?_holds hc
    · cases h

/-! ### Equalities -/

/-- Values of which one alone is a truth value are never equal. -/
theorem equal_eq_false {a b : Option Value} (ha : ∀ w, a = some w → ∃ p, w = .bool p)
    (hb : ∀ p, b ≠ some (.bool p)) : equal a b = false ∧ equal b a = false := by
  rcases a with - | w
  · exact ⟨rfl, by rcases b <;> rfl⟩
  · obtain ⟨p, rfl⟩ := ha w rfl
    rcases b with - | (- | q | n | s | s)
    case some.bool => exact absurd rfl (hb q)
    all_goals exact ⟨rfl, rfl⟩

/-- The names of all properties end alike. -/
theorem endsWith_of_property {n : Option Num} {name : String} {p : Bool}
    (h : property n name = some p) : name.endsWith "?" = true := by
  unfold property at h
  split at h
  case h_6 => cases h
  all_goals decide +kernel

/-- What counts as true or false has no other values, if its connectives have none. -/
theorem isTruthValue_of_isBoolean {v : Value} {e : Expr} (he : e.isBoolean = true)
    (htruth : isConnective e = true → IsTruthValue param v e) : IsTruthValue param v e := by
  intro w h
  rcases e with n | y | p | - | s | s | name | ⟨- | -, e⟩ | ⟨- | - | - | - | op | op, a, b⟩ |
    ⟨name, args⟩ | ⟨receiver, name, - | ⟨arg, args⟩⟩ | ⟨receiver, key⟩
  case bool => exact ⟨p, (Option.some.inj h).symm⟩
  case unary.not =>
    obtain ⟨u, -, rfl⟩ := Option.map_eq_some_iff.mp h
    exact ⟨_, rfl⟩
  case binary.or | binary.and => exact htruth rfl w h
  case binary.eq | binary.ne | binary.order => exact ⟨_, (Option.some.inj h).symm⟩
  case method.nil =>
    obtain ⟨p, -, rfl⟩ := Option.map_eq_some_iff.mp h
    exact ⟨p, rfl⟩
  case method.cons => cases h
  all_goals cases he

/-- What is written as something else than a truth value is none. -/
theorem eval_ne_bool {n : Num} {e : Expr} (he : e.isBoolean = false) (p : Bool) :
    eval param (.num n) e ≠ some (.bool p) := by
  intro h
  rcases e with n | y | p | - | s | s | name | ⟨- | -, e⟩ | ⟨- | - | - | - | op | op, a, b⟩ |
    ⟨name, args⟩ | ⟨receiver, name, - | ⟨arg, args⟩⟩ | ⟨receiver, key⟩
  case var =>
    rw [eval] at h
    split at h
    · cases h
    · cases h
  case unary.neg =>
    obtain ⟨u, -, hu⟩ := Option.map_eq_some_iff.mp h
    cases hu
  case binary.arith =>
    obtain ⟨m, -, h⟩ := Option.bind_eq_some_iff.mp h
    obtain ⟨n, -, h⟩ := Option.bind_eq_some_iff.mp h
    obtain ⟨u, -, hu⟩ := Option.map_eq_some_iff.mp h
    cases hu
  case method.nil =>
    obtain ⟨q, hq, -⟩ := Option.map_eq_some_iff.mp h
    exact absurd (endsWith_of_property hq) (Bool.eq_false_iff.mp he)
  case bool | unary.not | binary.or | binary.and | binary.eq | binary.ne | binary.order =>
    cases he
  all_goals cases h

theorem settled_of_isBoolean {v : Value} {e : Expr} (he : e.isBoolean = true)
    (h : Settled param v false e) : Settled param v true e := by
  rcases e with n | y | p | - | s | s | name | ⟨- | -, e⟩ | ⟨- | - | - | - | op | op, a, b⟩ |
    ⟨name, args⟩ | ⟨receiver, name, args⟩ | ⟨receiver, key⟩
  case unary.neg | binary.arith => cases he
  all_goals exact h

/-- A literal that is no number equals another one exactly if it is written the same. -/
theorem sameLiteral_eq_equal {v : Value} (hl : lhs.isLiteral = true) (hr : rhs.isLiteral = true)
    (h : (∀ s, Body.stepExpr param lhs ≠ .ok s) ∨ ∀ s, Body.stepExpr param rhs ≠ .ok s) :
    lhs.sameLiteral rhs = equal (eval param v lhs) (eval param v rhs) := by
  rcases h with h | h
  · cases lhs
    case int | float => exact absurd rfl (h _)
    case bool | nil | str | symbol => cases rhs <;> first | rfl | cases hr
    all_goals cases hl
  · cases rhs
    case int | float => exact absurd rfl (h _)
    case bool | nil | str | symbol => cases lhs <;> first | rfl | cases hl
    all_goals cases hr

/-- **An equality** of sides that are true or false wherever they are connectives holds where the
host's values are equal. -/
theorem equality_holds {l r : Except (Halt BodyError) Condition}
    (h : Body.equalityOf param lhs rhs l r = .ok c)
    (hltruth : isConnective lhs = true → IsTruthValue param (.num (.int x)) lhs)
    (hrtruth : isConnective rhs = true → IsTruthValue param (.num (.int x)) rhs)
    (hlt : EachOperation param IsTameOperation (.num (.int x)) lhs)
    (hrt : EachOperation param IsTameOperation (.num (.int x)) rhs)
    (hlsettled : Settled param (.num (.int x)) false lhs)
    (hrsettled : Settled param (.num (.int x)) false rhs)
    (hl : ∀ c, l = .ok c → Settled param (.num (.int x)) true lhs →
      decided param (.num (.int x)) lhs = some (c.holds x))
    (hr : ∀ c, r = .ok c → Settled param (.num (.int x)) true rhs →
      decided param (.num (.int x)) rhs = some (c.holds x)) :
    c.holds x = equal (eval param (.num (.int x)) lhs) (eval param (.num (.int x)) rhs) := by
  cases Body.form_of_equality h with
  | comparison form =>
    cases form with
    | terms hs ht hc =>
      -- a congruence among them does not wrap, as the sides of remainders are small
      obtain ⟨m, hm, hsstands⟩ := ofExpr_stands hs hlt
      obtain ⟨n, hn, htstands⟩ := ofExpr_stands ht hrt
      have hunwrapped := unwrapped_of_isTame hsstands.tame htstands.tame hc
      rw [Term.equality?_holds hsstands.tame.proper htstands.tame.proper hc hunwrapped,
        ← hsstands.value, ← htstands.value, hm, hn]
      exact (eq_holds_int m n).symm
    | @arithmetic a b ha hb =>
      rw [Condition.comparison_holds, compare_holds, stepExpr_eval ha, stepExpr_eval hb]
      cases a.eval x <;> cases b.eval x <;> rfl
  | truths hboolean hcl hcr =>
    rcases hlbool : lhs.isBoolean with - | - <;> rcases hrbool : rhs.isBoolean with - | -
    case false.false =>
      rw [hlbool, hrbool] at hboolean
      cases hboolean
    -- a truth value on one side alone is not equal to what is on the other
    case false.true =>
      exact (equal_eq_false (isTruthValue_of_isBoolean hrbool hrtruth) (eval_ne_bool hlbool)).2.symm
    case true.false =>
      exact (equal_eq_false (isTruthValue_of_isBoolean hlbool hltruth) (eval_ne_bool hrbool)).1.symm
    case true.true =>
      have hdl := hl _ hcl (settled_of_isBoolean hlbool hlsettled)
      have hdr := hr _ hcr (settled_of_isBoolean hrbool hrsettled)
      obtain ⟨u, hu, hutruthy⟩ := Option.map_eq_some_iff.mp hdl
      obtain ⟨w, hw, hwtruthy⟩ := Option.map_eq_some_iff.mp hdr
      obtain ⟨p, rfl⟩ := isTruthValue_of_isBoolean hlbool hltruth u hu
      obtain ⟨q, rfl⟩ := isTruthValue_of_isBoolean hrbool hrtruth w hw
      rw [Bool.and_self, if_pos rfl, Condition.iff_holds, ← hutruthy, ← hwtruthy, hu, hw]
      rfl
  | literals hlliteral hrliteral hplain => exact sameLiteral_eq_equal hlliteral hrliteral hplain

/-! ### Conditions -/

/-- Without connectives in equalities, nothing is asked of them. -/
theorem hasTruthSides_of_plain {v : Value} : (e : Expr) → plainEqualities e = true →
    HasTruthSides param v e
  | .unary _ e, h => hasTruthSides_of_plain e h
  | .binary .or a b, h | .binary .and a b, h => by
    obtain ⟨ha, hb⟩ := Bool.and_eq_true_iff.mp h
    exact ⟨hasTruthSides_of_plain a ha, fun _ _ _ ↦ hasTruthSides_of_plain b hb⟩
  | .binary .eq a b, h | .binary .ne a b, h => by
    simp only [plainEqualities, Bool.and_eq_true, Bool.not_eq_true'] at h
    obtain ⟨⟨⟨hl, hr⟩, ha⟩, hb⟩ := h
    refine ⟨fun hc ↦ ?_, fun hc ↦ ?_, hasTruthSides_of_plain a ha, hasTruthSides_of_plain b hb⟩
    · cases hl.symm.trans hc
    · cases hr.symm.trans hc
  | .binary (.order _) _ _, _ | .binary (.arith _) _ _, _ | .method _ _ _, _ | .int _, _ | .float _, _
  | .bool _, _ | .nil, _ | .str _, _ | .symbol _, _ | .var _, _ | .call _ _, _
  | .index _ _, _ => trivial

theorem hasValue_of_usesStep {s : StepExpr} (h : s.usesStep = true) : Body.hasValue s = true := by
  cases s with
  | const => rfl
  | step | neg | binary => exact h

/-- Folded arithmetic that has a value counts as true. -/
theorem hasValue_folded {s : StepExpr} (h : (s.folded.eval x).isSome = true) :
    Body.hasValue s.folded = true := by
  rw [StepExpr.folded_eval] at h
  rw [StepExpr.folded]
  split
  · next huses => exact hasValue_of_usesStep huses
  · next huses =>
    split
    · rfl
    · next hnone =>
      rw [StepExpr.eval_eq_of_not_usesStep (Bool.not_eq_true _ ▸ huses) x 0, hnone] at h
      cases h

/-- Arithmetic with a value counts as true. -/
theorem decided_of_stepExpr {e : Expr} {s : StepExpr} (h : Body.stepExpr param e = .ok s.folded)
    (hvalue : (eval param (.num (.int x)) e).isSome = true) :
    decided param (.num (.int x)) e = some (Body.hasValue s.folded) := by
  rw [stepExpr_eval h, Option.isSome_map] at hvalue
  rw [hasValue_folded hvalue, decided, stepExpr_eval h]
  obtain ⟨n, hn⟩ := Option.isSome_iff_exists.mp hvalue
  rw [hn]
  rfl

section Connectives

variable {v : Value} {a b : Expr} {p q : Bool}

/-- The right side of an `or` is met only where the left one is false. -/
theorem decided_or (ha : decided param v a = some p)
    (hb : ∀ w, eval param v a = some w → w.isTruthy = false → decided param v b = some q) :
    decided param v (.binary .or a b) = some (p || q) := by
  obtain ⟨w, hw, rfl⟩ := Option.map_eq_some_iff.mp ha
  rw [decided, eval, hw, Option.bind_some]
  rcases htrue : w.isTruthy with - | -
  case true => rw [if_pos rfl, Option.map_some, htrue, Bool.true_or]
  case false =>
    rw [if_neg Bool.false_ne_true, Bool.false_or]
    exact hb w hw htrue

/-- The right side of an `and` is met only where the left one is true. -/
theorem decided_and (ha : decided param v a = some p)
    (hb : ∀ w, eval param v a = some w → w.isTruthy = true → decided param v b = some q) :
    decided param v (.binary .and a b) = some (p && q) := by
  obtain ⟨w, hw, rfl⟩ := Option.map_eq_some_iff.mp ha
  rw [decided, eval, hw, Option.bind_some]
  rcases htrue : w.isTruthy with - | -
  case false => rw [if_neg Bool.false_ne_true, Option.map_some, htrue, Bool.false_and]
  case true =>
    rw [if_pos rfl, Bool.true_and]
    exact hb w hw htrue

end Connectives

/-- **A condition** holds where the host counts the value of the expression as true. -/
theorem condition_holds {e : Expr} (h : Body.condition param e = .ok c)
    (htruth : HasTruthSides param (.num (.int x)) e)
    (htame : EachOperation param IsTameOperation (.num (.int x)) e)
    (hsettled : Settled param (.num (.int x)) true e) :
    decided param (.num (.int x)) e = some (c.holds x) := by
  -- along the reader; a side of a connective is met only where the host evaluates it
  fun_induction Body.condition param e generalizing c with
  | case1 | case2 | case3 | case4 | case5 | case6 =>
    obtain rfl := Except.ok.inj h
    rfl
  | case7 name hname =>
    obtain rfl := Except.ok.inj h
    rw [decided, eval, if_pos hname]
    rfl
  | case9 operand ih =>
    obtain ⟨inner, hinner, h⟩ := bind_eq_ok_iff.mp h
    obtain rfl := Except.ok.inj h
    obtain ⟨w, hw, htruthy⟩ := Option.map_eq_some_iff.mp (ih hinner htruth htame hsettled)
    rw [decided, eval, hw, Condition.negate_holds, ← htruthy]
    rfl
  | case10 lhs rhs ihl ihr =>
    obtain ⟨l, hl, h⟩ := bind_eq_ok_iff.mp h
    obtain ⟨r, hr, h⟩ := bind_eq_ok_iff.mp h
    obtain rfl := Except.ok.inj h
    rw [Condition.either_holds]
    exact decided_or (ihl hl htruth.1 htame.1 hsettled.1) fun w hw hfalse ↦
      ihr hr (htruth.2 w hw hfalse) (htame.2 w hw hfalse) (hsettled.2 w hw hfalse)
  | case11 lhs rhs ihl ihr =>
    obtain ⟨l, hl, h⟩ := bind_eq_ok_iff.mp h
    obtain ⟨r, hr, h⟩ := bind_eq_ok_iff.mp h
    obtain rfl := Except.ok.inj h
    rw [Condition.both_holds]
    exact decided_and (ihl hl htruth.1 htame.1 hsettled.1) fun w hw htrue ↦
      ihr hr (htruth.2 w hw htrue) (htame.2 w hw htrue) (hsettled.2 w hw htrue)
  | case12 lhs rhs ihl ihr =>
    obtain ⟨hltruth, hrtruth, hl, hr⟩ := htruth
    rw [equality_holds h hltruth hrtruth htame.1 htame.2 hsettled.1 hsettled.2
      (fun c hc ↦ ihl hc hl htame.1) (fun c hc ↦ ihr hc hr htame.2)]
    rfl
  | case13 lhs rhs ihl ihr =>
    obtain ⟨inner, hinner, h⟩ := bind_eq_ok_iff.mp h
    obtain rfl := Except.ok.inj h
    obtain ⟨hltruth, hrtruth, hl, hr⟩ := htruth
    rw [Condition.negate_holds, equality_holds hinner hltruth hrtruth htame.1 htame.2 hsettled.1
      hsettled.2 (fun c hc ↦ ihl hc hl htame.1) (fun c hc ↦ ihr hc hr htame.2)]
    rfl
  | case14 op lhs rhs =>
    rw [ordering_holds h htame.1 htame.2]
    rfl
  | case15 receiver name =>
    have hproperty := property_holds h htame.1 fun hname n hn ↦ (htame.2 hname n hn).2 rfl |>.1
    rw [decided, eval, hproperty]
    rfl
  | case16 op lhs rhs =>
    obtain ⟨s, hs, h⟩ := bind_eq_ok_iff.mp h
    obtain rfl := Except.ok.inj h
    rw [Body.arithmetic_eq_ok_iff] at hs
    obtain ⟨l, hl, hs'⟩ := bind_eq_ok_iff.mp hs
    obtain ⟨r, hr, hs'⟩ := bind_eq_ok_iff.mp hs'
    obtain rfl := Except.ok.inj hs'
    -- arithmetic by itself counts as true, if it has a value
    exact decided_of_stepExpr hs (hsettled rfl)
  | case17 operand =>
    obtain ⟨s, hs, h⟩ := bind_eq_ok_iff.mp h
    obtain rfl := Except.ok.inj h
    rw [Body.arithmetic_eq_ok_iff] at hs
    obtain ⟨l, hl, hs'⟩ := bind_eq_ok_iff.mp hs
    obtain rfl := Except.ok.inj hs'
    exact decided_of_stepExpr hs (hsettled rfl)
  | case8 | case18 => cases h

end StepSequencer.Script
