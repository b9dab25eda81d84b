import StepSequencer.Proofs.Script.ReadBack
import StepSequencer.Proofs.Script.SimpleReading

/-!
# What reading leaves

The reader simplifies while it reads, and `IsNormal` says that nothing of this is left to do, also in
the comparisons that stay. Reading anything without calls gives a normal rule
(`Body.isNormal_of_block`).

A comparison that stays as it is was not reducible as it stood in the script. It must not be reducible
as it is written either, after its constants are folded; that is `ofExpr_of_tree`.
-/

namespace StepSequencer

open Script Attempts

/-! ### Normal forms -/

namespace Condition

/-- The comparison, as it is written, is not one of terms that gives a simple condition. -/
def IsIrreducible (op : CmpOp) (lhs rhs : StepExpr) : Prop :=
  ∀ l r, Term.ofExpr (some "x") lhs.tree = .ok l → Term.ofExpr (some "x") rhs.tree = .ok r →
    Term.compared? op l r = none

/-- The comparison has the step in it, and it is neither folded nor reduced when it is read again. -/
def IsLasting (op : CmpOp) (lhs rhs : StepExpr) : Prop :=
  lhs.IsFolded ∧ rhs.IsFolded ∧ (lhs.usesStep || rhs.usesStep) = true ∧ IsIrreducible op lhs rhs

/-- Nothing in the condition is left to simplify. -/
abbrev IsNormal : Condition → Prop := IsSimple IsLasting

end Condition

/-- Nothing in the conditions of the rule is left to simplify, and none of them is constant. -/
abbrev Rule.IsNormal : Rule → Prop := IsSimple Condition.IsLasting

/-! ### Terms of folded arithmetic -/

namespace Script.Body

variable {param : Option String} {e : Expr} {s : StepExpr}

/-- Constants whose result is a word combine to it. -/
theorem combine_of_onWords? {op : ArithOp} {a b n : Int64} (h : op.onWords? a b = some n) :
    Term.combine op (.const a) (.const b) = .ok (.const n) := by
  cases op with
  | rem =>
    obtain ⟨q, hq, -⟩ := Option.bind_eq_some_iff.mp h
    have hmod : Word.floorMod? a b = some n := h
    rw [Term.combine, hq, hmod]
  | pow =>
    rw [ArithOp.onWords?] at h
    split at h
    · next hexponent => rw [Term.combine, if_pos hexponent, h, Term.exact]
    · cases h
  | _ => exact Term.exact_eq_ok_iff.mpr ⟨n, h, rfl⟩

/-- Arithmetic that is a whole constant is so as a term. -/
theorem ArithmeticForm.ofExpr_of_const (form : ArithmeticForm param e s) {n : Int64}
    (h : s = .const (.int n)) : Term.ofExpr param e = .ok (.const n) := by
  induction form generalizing n with
  | int =>
    obtain rfl := Num.int.inj (StepExpr.const.inj h)
    rfl
  | float | step => cases h
  | @neg e o operand ih =>
    rcases (StepExpr.neg o).folded_eq_or with heq | ⟨v, huses, hv, heq⟩
    · cases heq.symm.trans h
    · obtain rfl := StepExpr.const.inj (heq.symm.trans h)
      -- a negation folds to a word only if its operand was folded to one
      obtain ⟨w, hw, hneg⟩ := Option.map_eq_some_iff.mp hv
      obtain ⟨m, rfl, hm⟩ := int_of_neg hneg
      refine bind_eq_ok_iff.mpr ⟨.const m, ih (operand.isFolded.eq_const huses hw), ?_⟩
      exact Term.exact_eq_ok_iff.mpr ⟨n, hm, rfl⟩
  | @binary op lhs rhs l r left right ihl ihr =>
    rcases (StepExpr.binary op l r).folded_eq_or with heq | ⟨v, huses, hv, heq⟩
    · cases heq.symm.trans h
    · obtain rfl := StepExpr.const.inj (heq.symm.trans h)
      obtain ⟨v, hlv, hv⟩ := Option.bind_eq_some_iff.mp hv
      obtain ⟨w, hrw, hv⟩ := Option.bind_eq_some_iff.mp hv
      obtain ⟨a, b, rfl, rfl, hwords⟩ := int_of_apply hv
      obtain ⟨hluses, hruses⟩ := Bool.or_eq_false_iff.mp huses
      have hleft := ihl (left.isFolded.eq_const hluses hlv)
      have hright := ihr (right.isFolded.eq_const hruses hrw)
      refine bind_eq_ok_iff.mpr ⟨.const a, hleft, bind_eq_ok_iff.mpr ⟨.const b, hright, ?_⟩⟩
      exact combine_of_onWords? hwords

/-- The written form of a constant is a term only for a whole number. -/
theorem const_of_ofExpr_tree {v : Num} {t : Term}
    (h : Term.ofExpr (some "x") (StepExpr.const v).tree = .ok t) :
    ∃ n, v = .int n ∧ t = .const n := by
  rcases v with n | x
  · by_cases hn : n = Int64.minValue
    · subst hn
      cases h
    · exact ⟨n, rfl, (Except.ok.inj ((Word.ofExpr_tree hn).symm.trans h)).symm⟩
  · cases h

/-- **Folding makes no new terms.** If arithmetic is a term once its constants are folded and it is
written, it was that term before. -/
theorem ofExpr_of_tree {t : Term} (h : stepExpr (some "x") e = .ok s)
    (ht : Term.ofExpr (some "x") s.tree = .ok t) : Term.ofExpr (some "x") e = .ok t := by
  -- at each operator folding left the node as it was, or made a constant of it
  rw [stepExpr_eq_ok_iff] at h
  induction h generalizing t with
  | int n =>
    obtain ⟨m, hm, rfl⟩ := const_of_ofExpr_tree ht
    rw [Num.int.inj hm]
    rfl
  | float => cases ht
  | step hname =>
    obtain rfl := Option.some.inj hname
    exact ht
  | @neg e o operand ih =>
    rcases (StepExpr.neg o).folded_eq_or with heq | ⟨v, -, -, heq⟩
    · rw [heq] at ht
      obtain ⟨u, hu, hneg⟩ := bind_eq_ok_iff.mp ht
      exact bind_eq_ok_iff.mpr ⟨u, ih hu, hneg⟩
    · rw [heq] at ht
      obtain ⟨n, rfl, rfl⟩ := const_of_ofExpr_tree ht
      exact operand.neg.ofExpr_of_const heq
  | @binary op lhs rhs l r left right ihl ihr =>
    rcases (StepExpr.binary op l r).folded_eq_or with heq | ⟨v, -, -, heq⟩
    · rw [heq] at ht
      obtain ⟨u, hu, ht⟩ := bind_eq_ok_iff.mp ht
      obtain ⟨w, hw, ht⟩ := bind_eq_ok_iff.mp ht
      exact bind_eq_ok_iff.mpr ⟨u, ihl hu, bind_eq_ok_iff.mpr ⟨w, ihr hw, ht⟩⟩
    · rw [heq] at ht
      obtain ⟨n, rfl, rfl⟩ := const_of_ofExpr_tree ht
      exact (left.binary right).ofExpr_of_const heq

end Script.Body

/-! ### Conditions and values -/

namespace Script.Body

/-- **A comparison of arithmetic** whose sides were no terms to compare is so when it is written. -/
theorem keepsComparisons_isLasting : KeepsComparisons (some "x") Condition.IsLasting := by
  intro op lhs rhs a b ha hb hunreduced huses
  refine ⟨isFolded_of_stepExpr ha, isFolded_of_stepExpr hb, huses, fun l r hl hr ↦ ?_⟩
  -- terms that the written sides are, the sides were before
  exact hunreduced l r (ofExpr_of_tree ha hl) (ofExpr_of_tree hb hr)

variable {e : Expr}

/-- **A condition that is read** is normal. -/
theorem isNormal_of_condition {c : Condition} (hfree : e.IsCallFree)
    (h : condition (some "x") e = .ok c) : c.IsNormal :=
  isSimple_of_condition keepsComparisons_isLasting (.inl hfree) h

theorem isNormal_of_value {r : Rule} (hfree : e.IsCallFree) (h : value (some "x") e = .ok r) :
    r.IsNormal :=
  isSimple_of_value keepsComparisons_isLasting (.inl hfree) h

/-! ### Rules -/

/-- The statements are shaped like a written rule, and their expressions are call-free. -/
inductive IsCallFree : List Stmt → Prop where
  | answer {line : Nat} {e : Expr} (h : e.IsCallFree) : IsCallFree [.ret line (some e)]
  | test {line : Nat} {e : Expr} {taken otherwise : List Stmt} (h : e.IsCallFree)
      (htaken : IsCallFree taken) (hotherwise : IsCallFree otherwise) :
      IsCallFree [.cond line [(e, taken)] otherwise]
  | rebase {line : Nat} {name : String} {e : Expr} {rest : List Stmt} (h : IsCallFree rest) :
      IsCallFree (.assign line name e :: rest)

/-- **A rule that is read** from call-free statements is normal. -/
theorem isNormal_of_block {body : List Stmt} {r : Rule} (hfree : IsCallFree body)
    (h : block (some "x") body = .ok r) : r.IsNormal := by
  induction hfree generalizing r with
  | answer hfree =>
    rw [block, mapError_eq_ok_iff] at h
    exact isNormal_of_value hfree h
  | test hfree _ _ iht iho =>
    obtain ⟨a, b, c, ha, hb, hc, rfl⟩ := block_cond_eq_ok_iff.mp h
    exact isSimple_branch (isNormal_of_condition hfree hc) (iht ha) (iho hb)
  | rebase _ ih =>
    obtain ⟨-, _, shift, inner, -, -, hinner, rfl⟩ := of_block_assign h
    show inner.IsNormal
    exact ih hinner

end Script.Body

end StepSequencer
