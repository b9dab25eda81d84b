import StepSequencer.Proofs.Rule.Simplify
import StepSequencer.Proofs.Script.Forms
import StepSequencer.Proofs.Script.Host
import StepSequencer.Proofs.Script.Terms

/-!
# Arithmetic in function bodies

The two views that a rule takes of arithmetic, against what the host computes.

* `stepExpr_eval`: the expression in the step has the host's value at every step, and no value
  exactly where the host has none. Folding constants is what `StepExpr.folded_eval` allows.
* `ofExpr_stands`: a term stands for the host's value as long as the results of the operations on
  whole numbers are small, and the sides of remainders are. Otherwise the host goes on with floats and
  the term does not.
-/

namespace StepSequencer

/-- An exact whole result is the value of the operator. -/
theorem ArithOp.apply_of_onWords? {op : ArithOp} {a b n : Int64} (h : op.onWords? a b = some n) :
    op.apply (.int a) (.int b) = some (.int n) := by
  have hdivides : (op.divides && b == 0) = false := by
    rw [Bool.and_eq_false_iff, beq_eq_false_iff_ne]
    rcases op with - | - | - | - | - | -
    case div => exact .inr (Word.toInt_of_floorDiv? h).1
    case rem => exact .inr (Word.toInt_of_floorMod? h).1
    all_goals exact .inl rfl
  rw [apply, hdivides, if_neg Bool.false_ne_true, h]

namespace Script

open Attempts Host Word

variable {param : Option String} {x : Int64}

/-! ### Expressions in the step -/

theorem number?_map_num (o : Option Num) : (o.map Value.num).bind Value.number? = o := by
  cases o <;> rfl

/-- **An expression in the step** has the host's value. -/
theorem stepExpr_eval {e : Expr} {s : StepExpr} (h : Body.stepExpr param e = .ok s) :
    eval param (.num (.int x)) e = (s.eval x).map .num := by
  rw [Body.stepExpr_eq_ok_iff] at h
  induction h with
  | int | float => rfl
  | step hname => exact if_pos hname
  | neg _ ih =>
    rw [eval, ih, number?_map_num, StepExpr.folded_eval, StepExpr.eval, Option.map_map]
    rfl
  | binary _ _ ihl ihr =>
    rw [eval, ihl, ihr, number?_map_num, number?_map_num, StepExpr.folded_eval, StepExpr.eval]
    simp only [Option.map_bind, Function.comp_def]

/-! ### Operations on whole numbers -/

theorem int_of_neg {v : Num} {n : Int64} (h : v.neg = .int n) :
    ∃ m, v = .int m ∧ Word.neg? m = some n := by
  rcases v with m | x
  · rw [Num.neg] at h
    split at h
    · next k hk => exact ⟨m, rfl, hk.trans (congrArg some (Num.int.inj h))⟩
    · cases h
  · cases h

theorem int_of_apply {op : ArithOp} {v w : Num} {n : Int64} (h : op.apply v w = some (.int n)) :
    ∃ a b, v = .int a ∧ w = .int b ∧ op.onWords? a b = some n := by
  unfold ArithOp.apply at h
  split at h
  · next a b =>
    split at h
    · cases h
    split at h
    · next k hk => exact ⟨a, b, rfl, rfl, hk.trans (congrArg some (Num.int.inj (Option.some.inj h)))⟩
    · cases h
  · cases h

/-- A whole result is the exact one. -/
theorem exactResult?_of_onWords? {op : ArithOp} {a b n : Int64} (h : op.onWords? a b = some n) :
    exactResult? op a.toInt b.toInt = some n.toInt := by
  cases op with
  | add => exact congrArg some (add?_eq_some_iff.mp h).symm
  | sub => exact congrArg some (sub?_eq_some_iff.mp h).symm
  | mul => exact congrArg some (ofInt?_eq_some_iff.mp h).symm
  | div =>
    obtain ⟨hne, hquotient⟩ := toInt_of_floorDiv? h
    rw [exactResult?, if_neg (toInt_ne_zero hne), hquotient]
  | rem =>
    obtain ⟨hne, hrest⟩ := toInt_of_floorMod? h
    rw [exactResult?, if_neg (toInt_ne_zero hne), hrest]
  | pow =>
    rw [ArithOp.onWords?] at h
    split at h
    · next hexponent => rw [exactResult?, if_pos hexponent.1, pow?_eq_some_iff.mp h]
    · cases h

/-- What terms need of an operation: its result is small, and so are its sides if it is a
remainder. -/
def IsTameOperation (op : ArithOp) (m n : Int) : Prop := HasSmallResult op m n ∧ HasSmallSides op m n

/-- Two properties of the operations are one. -/
theorem eachOperation_and {p q : ArithOp → Int → Int → Prop} {v : Value} : (e : Expr) →
    EachOperation param p v e → EachOperation param q v e →
      EachOperation param (fun op m n ↦ p op m n ∧ q op m n) v e
  | .unary .not e, hp, hq => eachOperation_and e hp hq
  | .unary .neg e, hp, hq => ⟨eachOperation_and e hp.1 hq.1, fun n hn ↦ ⟨hp.2 n hn, hq.2 n hn⟩⟩
  | .binary .or a b, hp, hq | .binary .and a b, hp, hq =>
    ⟨eachOperation_and a hp.1 hq.1, fun w hw htruthy ↦
      eachOperation_and b (hp.2 w hw htruthy) (hq.2 w hw htruthy)⟩
  | .binary .eq a b, hp, hq | .binary .ne a b, hp, hq | .binary (.order _) a b, hp, hq =>
    ⟨eachOperation_and a hp.1 hq.1, eachOperation_and b hp.2 hq.2⟩
  | .binary (.arith _) a b, hp, hq =>
    ⟨eachOperation_and a hp.1 hq.1, eachOperation_and b hp.2.1 hq.2.1, fun m n hm hn ↦
      ⟨hp.2.2 m n hm hn, hq.2.2 m n hm hn⟩⟩
  | .method receiver _ _, hp, hq =>
    ⟨eachOperation_and receiver hp.1 hq.1, fun hname n hn ↦ ⟨hp.2 hname n hn, hq.2 hname n hn⟩⟩
  | .int _, _, _ | .float _, _, _ | .bool _, _, _ | .nil, _, _ | .str _, _, _ | .symbol _, _, _
  | .var _, _, _ | .call _ _, _, _ | .index _ _, _, _ => trivial

theorem number?_eq_some_iff {w : Value} {n : Num} : w.number? = some n ↔ w = .num n := by
  cases w <;> simp [Value.number?]

/-- A negation is a whole number only if its operand is one. -/
theorem operand_of_eval {v : Value} {e : Expr} {n : Int64}
    (h : eval param v (.unary .neg e) = some (.num (.int n))) :
    ∃ m, eval param v e = some (.num (.int m)) ∧ neg? m = some n := by
  obtain ⟨k, hk, hneg⟩ := Option.map_eq_some_iff.mp h
  obtain ⟨w, hw, hnumber⟩ := Option.bind_eq_some_iff.mp hk
  obtain ⟨m, rfl, hm⟩ := int_of_neg (Value.num.inj hneg)
  exact ⟨m, number?_eq_some_iff.mp hnumber ▸ hw, hm⟩

/-- The result of an operator is a whole number only if its operands are. -/
theorem operands_of_eval {v : Value} {op : ArithOp} {a b : Expr} {n : Int64}
    (h : eval param v (.binary (.arith op) a b) = some (.num (.int n))) :
    ∃ k m, eval param v a = some (.num (.int k)) ∧ eval param v b = some (.num (.int m)) ∧
      op.onWords? k m = some n := by
  obtain ⟨k, hk, h⟩ := Option.bind_eq_some_iff.mp h
  obtain ⟨m, hm, h⟩ := Option.bind_eq_some_iff.mp h
  obtain ⟨r, hr, h⟩ := Option.map_eq_some_iff.mp h
  obtain ⟨u, hu, hunumber⟩ := Option.bind_eq_some_iff.mp hk
  obtain ⟨w, hw, hwnumber⟩ := Option.bind_eq_some_iff.mp hm
  obtain rfl := Value.num.inj h
  obtain ⟨k, m, rfl, rfl, hwords⟩ := int_of_apply hr
  exact ⟨k, m, number?_eq_some_iff.mp hunumber ▸ hu, number?_eq_some_iff.mp hwnumber ▸ hw, hwords⟩

/-- A whole number within the bounds is small. -/
theorem isSmall_of_eval {v : Value} {n : Int64} : (e : Expr) → InBounds param v e →
    eval param v e = some (.num (.int n)) → IsSmall n.toInt
  | .int _, hb, h => by
    obtain rfl := Num.int.inj (Value.num.inj (Option.some.inj h))
    exact hb
  | .var name, hb, h => by
    rw [eval] at h
    split at h
    · obtain rfl := Option.some.inj h
      exact hb
    · cases h
  | .unary .neg e, hb, h => by
    obtain ⟨m, hm, hneg⟩ := operand_of_eval h
    exact neg?_eq_some_iff.mp hneg ▸ hb.2 m hm
  | .binary .or a b, hb, h => by
    obtain ⟨w, hw, h⟩ := Option.bind_eq_some_iff.mp h
    split at h
    · exact isSmall_of_eval a hb.1 (hw.trans h)
    · next hfalse => exact isSmall_of_eval b (hb.2 w hw (Bool.not_eq_true _ ▸ hfalse)) h
  | .binary .and a b, hb, h => by
    obtain ⟨w, hw, h⟩ := Option.bind_eq_some_iff.mp h
    split at h
    · next htrue => exact isSmall_of_eval b (hb.2 w hw htrue) h
    · exact isSmall_of_eval a hb.1 (hw.trans h)
  | .binary (.arith op) a b, hb, h => by
    obtain ⟨k, m, hk, hm, hwords⟩ := operands_of_eval h
    exact hb.2.2 k m hk hm n.toInt (exactResult?_of_onWords? hwords)
  | .unary .not e, _, h => by
    obtain ⟨w, -, hw⟩ := Option.map_eq_some_iff.mp h
    cases hw
  | .method receiver name [], _, h => by
    obtain ⟨w, -, hw⟩ := Option.map_eq_some_iff.mp h
    cases hw
  | .binary .eq a b, _, h | .binary .ne a b, _, h | .binary (.order _) a b, _, h => by
    cases Option.some.inj h
  | .float _, _, h | .bool _, _, h | .nil, _, h | .str _, _, h | .symbol _, _, h
  | .call _ _, _, h | .index _ _, _, h | .method _ _ (_ :: _), _, h => by cases h

/-- Within the bounds, each operation is one that terms can do. -/
theorem tame_of_inBounds {v : Value} : (e : Expr) → InBounds param v e →
    EachOperation param IsTameOperation v e
  | .unary .not e, hb => tame_of_inBounds e hb
  | .unary .neg e, hb => by
    refine ⟨tame_of_inBounds e hb.1, fun n hn ↦ ⟨?_, nofun⟩⟩
    rintro _ ⟨⟩
    exact Int.zero_sub _ ▸ hb.2 n hn
  | .binary .or a b, hb | .binary .and a b, hb =>
    ⟨tame_of_inBounds a hb.1, fun w hw htruthy ↦ tame_of_inBounds b (hb.2 w hw htruthy)⟩
  | .binary .eq a b, hb | .binary .ne a b, hb | .binary (.order _) a b, hb =>
    ⟨tame_of_inBounds a hb.1, tame_of_inBounds b hb.2⟩
  | .binary (.arith op) a b, hb =>
    ⟨tame_of_inBounds a hb.1, tame_of_inBounds b hb.2.1, fun m n hm hn ↦
      ⟨hb.2.2 m n hm hn, fun _ ↦ ⟨isSmall_of_eval a hb.1 hm, isSmall_of_eval b hb.2.1 hn⟩⟩⟩
  | .method receiver name _, hb => by
    refine ⟨tame_of_inBounds receiver hb, fun _ n hn ↦ ⟨?_, fun _ ↦ ?_⟩⟩
    · rintro _ ⟨⟩
      have hlow := Int.fmod_nonneg_of_pos n.toInt (b := 2) (by decide)
      have hhigh := Int.fmod_lt_of_pos n.toInt (b := 2) (by decide)
      exact ⟨by omega, by omega⟩
    · exact ⟨isSmall_of_eval receiver hb hn, by decide⟩
  | .int _, _ | .float _, _ | .bool _, _ | .nil, _ | .str _, _ | .symbol _, _ | .var _, _
  | .call _ _, _ | .index _ _, _ => trivial

/-! ### Terms -/

/-- The sides of a residue are small at step `x`. -/
def Term.IsTame (x : Int64) : Term → Prop
  | .residue offset modulus =>
    Word.IsSmall (x.toInt + offset.toInt) ∧ Word.IsSmall modulus.toInt ∧ 0 < modulus.toInt
  | _ => True

theorem Term.IsTame.proper {t : Term} (h : t.IsTame x) : t.Proper := by
  rcases t with a | offset | ⟨offset, modulus⟩
  · trivial
  · trivial
  · exact h.2.2

/-- **Terms combine exactly**: the value of the result is the exact result of the values. -/
theorem Term.Combined.exactResult? {op : ArithOp} {l r t : Term} (h : Combined op l r t)
    (x : Int64) : exactResult? op (l.value x) (r.value x) = some (t.value x) := by
  cases h with
  | computed h => exact exactResult?_of_onWords? h
  | addConst h | constAdd h | subConst h =>
    simp only [Host.exactResult?, Term.value, Option.some.injEq]
    omega
  | residue hpos =>
    exact (if_neg (Int.ne_of_gt hpos)).trans
      (congrArg some (Int.fmod_eq_emod_of_nonneg _ (Int.le_of_lt hpos)))

/-- A word that an expression has as its value, and the term that the expression is. -/
structure Stands (x : Int64) (t : Term) (n : Int64) : Prop where
  value : n.toInt = t.value x
  tame : t.IsTame x

theorem Stands.eq_of_const {a n : Int64} (h : Stands x (.const a) n) : n = a :=
  Int64.toInt_inj.mp h.value

/-- A sum or difference has a word as its value if a word holds it. -/
theorem onWords?_of_holds {op : ArithOp} {m n : Int64} {total : Int} (hop : op = .add ∨ op = .sub)
    (h : exactResult? op m.toInt n.toInt = some total) (hholds : Holds total) :
    ∃ k, op.onWords? m n = some k ∧ k.toInt = total := by
  obtain rfl | rfl := hop <;> obtain rfl := Option.some.inj h <;> exact ofInt?_of_holds hholds

/-- What two terms combine to stands for the value of the operator, if the operation is one that
terms can do. -/
theorem Term.Combined.stands {op : ArithOp} {l r t : Term} {m n : Int64} (h : Combined op l r t)
    (hl : Stands x l m) (hr : Stands x r n) (htame : IsTameOperation op m.toInt n.toInt) :
    ∃ k, op.apply (.int m) (.int n) = some (.int k) ∧ Stands x t k := by
  have hexact := h.exactResult? x
  rw [← hl.value, ← hr.value] at hexact
  have hholds : Holds (t.value x) := (htame.1 _ hexact).holds
  cases h with
  | computed hk =>
    obtain rfl := hl.eq_of_const
    obtain rfl := hr.eq_of_const
    exact ⟨_, ArithOp.apply_of_onWords? hk, rfl, trivial⟩
  | addConst | constAdd =>
    obtain ⟨k, hk, hvalue⟩ := onWords?_of_holds (.inl rfl) hexact hholds
    exact ⟨k, ArithOp.apply_of_onWords? hk, hvalue, trivial⟩
  | subConst =>
    obtain ⟨k, hk, hvalue⟩ := onWords?_of_holds (.inr rfl) hexact hholds
    exact ⟨k, ArithOp.apply_of_onWords? hk, hvalue, trivial⟩
  | @residue c modulus hpos =>
    -- nothing was checked, so the remainder is exact for small numbers only
    obtain rfl := hr.eq_of_const
    have hvalue : m.toInt = x.toInt + c.toInt := hl.value
    obtain ⟨hm, hmodulus⟩ := htame.2 rfl
    obtain ⟨rest, hrest, htoInt⟩ := floorMod?_of_small hm hmodulus hpos
    refine ⟨rest, ArithOp.apply_of_onWords? hrest, ?_, hvalue ▸ hm, hmodulus, hpos⟩
    rw [htoInt, hvalue]
    rfl

/-- The step is the term that shifts it by nothing. -/
theorem toInt_eq_value_step (x : Int64) : x.toInt = (Term.step 0).value x := by
  rw [Term.value, Int64.toInt_zero, Int.add_zero]

theorem eval_neg {v : Value} {e : Expr} {a b : Int64} (he : eval param v e = some (.num (.int a)))
    (hneg : neg? a = some b) : eval param v (.unary .neg e) = some (.num (.int b)) := by
  rw [eval, he]
  show some (Value.num (Num.neg (.int a))) = _
  rw [Num.neg, hneg]

theorem eval_arith {v : Value} {op : ArithOp} {lhs rhs : Expr} {m n : Int64} {k : Num}
    (hl : eval param v lhs = some (.num (.int m))) (hr : eval param v rhs = some (.num (.int n)))
    (h : op.apply (.int m) (.int n) = some k) :
    eval param v (.binary (.arith op) lhs rhs) = some (.num k) := by
  rw [eval, hl, hr]
  show (op.apply (.int m) (.int n)).map Value.num = _
  rw [h]
  rfl

/-- **An expression that is a term** has the word that the term stands for as its value. -/
theorem ofExpr_stands {e : Expr} {t : Term} (h : Term.ofExpr param e = .ok t)
    (htame : EachOperation param IsTameOperation (.num (.int x)) e) :
    ∃ n, eval param (.num (.int x)) e = some (.num (.int n)) ∧ Stands x t n := by
  replace h := Term.form_of_ofExpr h
  induction h with
  | const n => exact ⟨n, rfl, rfl, trivial⟩
  | step hname => exact ⟨x, if_pos hname, toInt_eq_value_step x, trivial⟩
  | neg _ hneg ih =>
    obtain ⟨n, hn, hstands⟩ := ih htame.1
    obtain rfl := hstands.eq_of_const
    exact ⟨_, eval_neg hn hneg, rfl, trivial⟩
  | binary _ _ hcombined ihl ihr =>
    obtain ⟨m, hm, hl⟩ := ihl htame.1
    obtain ⟨n, hn, hr⟩ := ihr htame.2.1
    obtain ⟨k, hk, hstands⟩ := hcombined.stands hl hr (htame.2.2 m n hm hn)
    exact ⟨k, eval_arith hm hn hk, hstands⟩

end Script

end StepSequencer
