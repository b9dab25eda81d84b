import StepSequencer.Proofs.Rule.Validation
import StepSequencer.Proofs.Script.Lowering
import StepSequencer.Proofs.Script.Unchecked
import StepSequencer.Proofs.Script.WrittenScript

/-!
# Written rules, read back

The tree that a condition is written as becomes a condition again, and the statements of a rule a
rule. A congruence or a bound comes back as it was. A comparison of two expressions may come back
simplified: where a side is the step plus a constant it becomes a bound, so it only means the same
while no whole number on the way leaves its bounds (`InBounds`).

Reading a remainder of two constants multiplies without a check. What is asked of an expression for
that is `RemaindersFit`; everything else that is written is accepted.
-/

namespace StepSequencer

open Script (Expr Stmt BinaryOp)

/-! ### What is asked of the numbers -/

namespace StepExpr

/-- In each remainder of two constants, the multiple of the divisor that is taken away fits a
word. -/
def RemaindersFit : StepExpr → Prop
  | .step | .const _ => True
  | .neg operand => operand.RemaindersFit
  | .binary op lhs rhs =>
    lhs.RemaindersFit ∧ rhs.RemaindersFit ∧
      (op = .rem → lhs.usesStep = false → rhs.usesStep = false →
        ∀ a b, lhs.eval 0 = some (.int a) → rhs.eval 0 = some (.int b) →
          Word.Holds (b.toInt * a.toInt.fdiv b.toInt))

/-- At step `x`, the step, the constants and the exact results of the operations on whole numbers
are small. -/
def InBounds (x : Int64) : StepExpr → Prop
  | .step => Word.IsSmall x.toInt
  | .const (.int n) => Word.IsSmall n.toInt
  | .const (.float _) => True
  | .neg operand =>
    operand.InBounds x ∧ ∀ n, operand.eval x = some (.int n) → Word.IsSmall (-n.toInt)
  | .binary op lhs rhs =>
    lhs.InBounds x ∧ rhs.InBounds x ∧
      ∀ m n, lhs.eval x = some (.int m) → rhs.eval x = some (.int n) →
        ∀ k ∈ Script.Host.exactResult? op m.toInt n.toInt, Word.IsSmall k

end StepExpr

namespace Condition

mutual

/-- Both sides of every comparison have the property. -/
def ForSides (p : StepExpr → Prop) : Condition → Prop
  | .compare _ lhs rhs => p lhs ∧ p rhs
  | .any members | .all members => EachForSides p members
  | .not operand => ForSides p operand
  | _ => True

/-- Both sides of every comparison in the members have the property. -/
def EachForSides (p : StepExpr → Prop) : List Condition → Prop
  | [] => True
  | c :: cs => ForSides p c ∧ EachForSides p cs

end

end Condition

namespace Rule

/-- The remainders of constants fit in every comparison. -/
def RemaindersFit : Rule → Prop
  | .answer _ => True
  | .test condition taken otherwise =>
    condition.ForSides StepExpr.RemaindersFit ∧ taken.RemaindersFit ∧ otherwise.RemaindersFit
  | .rebase _ rule => rule.RemaindersFit

/-- The comparisons that the answer at step `x` depends on are in bounds. -/
def InBounds (x : Int64) : Rule → Prop
  | .answer _ => True
  | .test condition taken otherwise =>
    condition.ForSides (StepExpr.InBounds x) ∧ (condition.holds x = true → taken.InBounds x) ∧
      (condition.holds x = false → otherwise.InBounds x)
  | .rebase shift rule => rule.InBounds (x - shift)

end Rule

/-! ### Expressions -/

open Script Attempts
open Script.Host (Value)
open Word (IsSmall)

variable {x : Int64}

theorem Word.isSmall_neg {n : Int64} (hn : n ≠ Int64.minValue) (h : IsSmall n.toInt) :
    IsSmall (-n).toInt := by
  rw [Word.toInt_neg hn]
  unfold IsSmall at h ⊢
  omega

theorem Word.neg?_neg {n : Int64} (h : n ≠ Int64.minValue) : Word.neg? (-n) = some n := by
  rw [Word.neg?_eq_some_iff, Word.toInt_neg h, Int.neg_neg]

/-- A written number is a constant. -/
theorem Word.ofExpr_tree {n : Int64} (h : n ≠ Int64.minValue) :
    Term.ofExpr (some "x") (Word.tree n) = .ok (.const n) := by
  rw [Word.tree]
  split
  · show Term.exact .const (Word.neg? (-n)) = _
    rw [Word.neg?_neg h]
    rfl
  · rfl

/-- A written shift is the shifted step. -/
theorem Word.ofExpr_shiftTree {offset : Int64} (h : offset ≠ Int64.minValue) :
    Term.ofExpr (some "x") (Word.shiftTree offset) = .ok (.step offset) := by
  have hzero : (0 : Int64).toInt = 0 := Int64.toInt_zero
  rw [Word.shiftTree]
  split
  · next hoffset =>
    rw [hoffset]
    rfl
  split
  · show Term.exact .step (Word.add? 0 offset) = _
    rw [Word.add?_eq_some_iff.mpr (by omega : offset.toInt = (0 : Int64).toInt + offset.toInt)]
    rfl
  · have hvalue : offset.toInt = (0 : Int64).toInt - (-offset).toInt := by
      rw [Word.toInt_neg h]
      omega
    show Term.exact .step (Word.sub? 0 (-offset)) = _
    rw [Word.sub?_eq_some_iff.mpr hvalue]
    rfl

theorem Word.eval_tree {n : Int64} (h : n ≠ Int64.minValue) (v : Value) :
    Host.eval (some "x") v (Word.tree n) = some (.num (.int n)) := by
  rw [Word.tree]
  split
  · show some (Value.num (Num.neg (.int (-n)))) = _
    rw [Num.neg, Word.neg?_neg h]
  · rfl

namespace StepExpr

/-- The host gives a written expression its value. -/
theorem eval_tree {e : StepExpr} (h : e.IsExact) :
    Host.eval (some "x") (.num (.int x)) e.tree = (e.eval x).map .num := by
  induction e with
  | step => rfl
  | const value =>
    rcases value with n | y
    · exact Word.eval_tree h _
    · cases h
  | neg operand ih =>
    rw [StepExpr.tree, Host.eval, ih h, number?_map_num, StepExpr.eval, Option.map_map]
    rfl
  | binary op lhs rhs ihl ihr =>
    rw [StepExpr.tree, Host.eval, ihl h.1, ihr h.2, number?_map_num, number?_map_num, StepExpr.eval]
    simp only [Option.map_bind, Function.comp_def]

theorem eval_of_tree {e : StepExpr} (h : e.IsExact) {n : Int64}
    (hn : Host.eval (some "x") (.num (.int x)) e.tree = some (.num (.int n))) :
    e.eval x = some (.int n) := by
  rw [eval_tree h] at hn
  obtain ⟨m, hm, hvalue⟩ := Option.map_eq_some_iff.mp hn
  rw [hm, Value.num.inj hvalue]

theorem inBounds_tree {e : StepExpr} (hexact : e.IsExact) (h : e.InBounds x) :
    Host.InBounds (some "x") (.num (.int x)) e.tree := by
  induction e with
  | step => exact h
  | const value =>
    rcases value with n | y
    · have hsmall : IsSmall n.toInt := h
      rw [tree, Word.tree]
      split
      · refine ⟨Word.isSmall_neg hexact hsmall, ?_⟩
        rintro _ ⟨⟩
        rw [Word.toInt_neg hexact, Int.neg_neg]
        exact hsmall
      · exact hsmall
    · cases hexact
  | neg operand ih =>
    have hoperand : operand.IsExact := hexact
    exact ⟨ih hoperand h.1, fun n hn ↦ h.2 n (eval_of_tree hoperand hn)⟩
  | binary op lhs rhs ihl ihr =>
    exact ⟨ihl hexact.1 h.1, ihr hexact.2 h.2.1, fun m n hm hn ↦
      h.2.2 m n (eval_of_tree hexact.1 hm) (eval_of_tree hexact.2 hn)⟩

/-- A written expression is arithmetic on the step. -/
theorem stepExpr_tree {e : StepExpr} (h : e.IsExact) :
    ∃ s, Body.stepExpr (some "x") e.tree = .ok s := by
  induction e with
  | step => exact ⟨.step, rfl⟩
  | const value =>
    rcases value with n | y
    · rw [tree, Word.tree]
      split
      · exact ⟨_, rfl⟩
      · exact ⟨_, rfl⟩
    · cases h
  | neg operand ih =>
    obtain ⟨s, hs⟩ := ih h
    exact ⟨_, bind_eq_ok_iff.mpr ⟨s, hs, rfl⟩⟩
  | binary op lhs rhs ihl ihr =>
    obtain ⟨l, hl⟩ := ihl h.1
    obtain ⟨r, hr⟩ := ihr h.2
    exact ⟨_, bind_eq_ok_iff.mpr ⟨l, hl, bind_eq_ok_iff.mpr ⟨r, hr, rfl⟩⟩⟩

/-! ### Remainders -/

/-- Two terms that combine to a constant are constants, and so is their exact result. -/
theorem onWords?_of_combine {op : ArithOp} {l r : Term} {n : Int64}
    (h : Term.combine op l r = .ok (.const n)) :
    ∃ a b, l = .const a ∧ r = .const b ∧ op.onWords? a b = some n := by
  cases Term.combined_of_combine h with
  | computed hk => exact ⟨_, _, rfl, rfl, hk⟩

/-- A written expression that is a constant has that value at every step. -/
theorem eval_of_ofExpr_const {e : StepExpr} (hexact : e.IsExact) {n : Int64}
    (h : Term.ofExpr (some "x") e.tree = .ok (.const n)) :
    e.usesStep = false ∧ ∀ x, e.eval x = some (.int n) := by
  induction e generalizing n with
  | step => cases h
  | const value =>
    rcases value with m | y
    · cases (Word.ofExpr_tree hexact).symm.trans h
      exact ⟨rfl, fun _ ↦ rfl⟩
    · cases hexact
  | neg operand ih =>
    obtain ⟨t, ht, h⟩ := bind_eq_ok_iff.mp h
    split at h
    · next m =>
      obtain ⟨k, hk, hn⟩ := Term.exact_eq_ok_iff.mp h
      obtain rfl := Term.const.inj hn
      obtain ⟨huses, heval⟩ := ih hexact ht
      refine ⟨huses, fun x ↦ ?_⟩
      rw [StepExpr.eval, heval x, Option.map_some, Num.neg, hk]
    · cases h
  | binary op lhs rhs ihl ihr =>
    obtain ⟨l, hl, h⟩ := bind_eq_ok_iff.mp h
    obtain ⟨r, hr, h⟩ := bind_eq_ok_iff.mp h
    obtain ⟨a, b, rfl, rfl, hwords⟩ := onWords?_of_combine h
    obtain ⟨hluses, hleval⟩ := ihl hexact.1 hl
    obtain ⟨hruses, hreval⟩ := ihr hexact.2 hr
    refine ⟨Bool.or_eq_false_iff.mpr ⟨hluses, hruses⟩, fun x ↦ ?_⟩
    rw [StepExpr.eval, hleval x, hreval x]
    exact ArithOp.apply_of_onWords? hwords

/-- **Reading a written expression** does not multiply past a word. -/
theorem fits_unchecked_tree {e : StepExpr} (hexact : e.IsExact) (hfit : e.RemaindersFit) :
    ∀ u ∈ Term.unchecked (some "x") e.tree, u.Fits := by
  induction e with
  | step => exact List.forall_mem_nil _
  | const value =>
    rcases value with n | y
    · rw [tree, Word.tree]
      split <;> exact List.forall_mem_nil _
    · cases hexact
  | neg operand ih => exact ih hexact hfit
  | binary op lhs rhs ihl ihr =>
    obtain ⟨hlfit, hrfit, hproduct⟩ := hfit
    intro u hu
    rw [tree, Term.unchecked, List.mem_append, mem_following] at hu
    obtain hu | ⟨l, hl, hu⟩ := hu
    · exact ihl hexact.1 hlfit u hu
    rw [List.mem_append, mem_following] at hu
    obtain hu | ⟨r, hr, hu⟩ := hu
    · exact ihr hexact.2 hrfit u hu
    -- of the operators on terms, only a remainder of constants multiplies without a check
    unfold Term.uncheckedCombine at hu
    split at hu
    · next a b hop =>
      obtain ⟨q, hq, rfl⟩ := List.mem_map.mp hu
      have hq : Word.floorDiv? a b = some q := Option.mem_toList.mp hq
      obtain ⟨hluses, hleval⟩ := eval_of_ofExpr_const hexact.1 hl
      obtain ⟨hruses, hreval⟩ := eval_of_ofExpr_const hexact.2 hr
      rw [Unchecked.fits_remainder hq]
      exact Word.floorMod?_of_floorDiv? hq
        (hproduct (BinaryOp.arith.inj hop) hluses hruses a b (hleval 0) (hreval 0))
    · cases hu

/-- What a written expression is as a term, if it is one. -/
theorem term?_tree {e : StepExpr} (hexact : e.IsExact) (hfit : e.RemaindersFit) :
    ∃ t, Body.term? (some "x") e.tree = .ok t := by
  have hne := (Term.reveals_ofExpr e.tree).not_aborted (fits_unchecked_tree hexact hfit)
  rw [Body.term?]
  split
  · exact ⟨_, rfl⟩
  · exact ⟨_, rfl⟩
  · next o h => exact absurd h (hne o)

/-! ### What kind of expression is written -/

theorem isBoolean_tree (e : StepExpr) : e.tree.isBoolean = false := by
  rcases e with - | (n | y) | operand | ⟨op, lhs, rhs⟩
  case const.int =>
    rw [tree, Word.tree]
    split <;> rfl
  all_goals rfl

theorem isConnective_tree (e : StepExpr) : Host.isConnective e.tree = false := by
  rcases e with - | (n | y) | operand | ⟨op, lhs, rhs⟩
  case const.int =>
    rw [tree, Word.tree]
    split <;> rfl
  all_goals rfl

theorem plainEqualities_tree (e : StepExpr) : Host.plainEqualities e.tree = true := by
  induction e with
  | step => rfl
  | const value =>
    rcases value with n | y
    · rw [tree, Word.tree]
      split <;> rfl
    · rfl
  | neg operand ih => exact ih
  | binary op lhs rhs ihl ihr => exact Bool.and_eq_true_iff.mpr ⟨ihl, ihr⟩

theorem settled_tree (e : StepExpr) (v : Value) : Host.Settled (some "x") v false e.tree := by
  rcases e with - | (n | y) | operand | ⟨op, lhs, rhs⟩
  case const.int =>
    rw [tree, Word.tree]
    split
    · rintro ⟨⟩
    · trivial
  case neg | binary => rintro ⟨⟩
  all_goals trivial

end StepExpr

/-! ### Conditions -/

/-- The operator that the connective is written as. -/
def Connective.operator : Connective → BinaryOp
  | .any => .or
  | .all => .and

namespace Condition

variable {param : Option String} {lhs rhs : Expr} {l r : Term} {c : Condition}

theorem equalityOf_of_terms {cl cr : Except (Halt BodyError) Condition}
    (hl : Term.ofExpr param lhs = .ok l) (hr : Term.ofExpr param rhs = .ok r)
    (hc : l.equality? r = some c) : Body.equalityOf param lhs rhs cl cr = .ok c := by
  refine bind_eq_ok_iff.mpr ⟨some l, term?_eq_some_iff.mpr hl, ?_⟩
  refine bind_eq_ok_iff.mpr ⟨some r, term?_eq_some_iff.mpr hr, ?_⟩
  rw [Option.bind_some, Option.bind_some, hc]

theorem ordering_of_terms {op : OrderOp}
    (hl : Term.ofExpr param lhs = .ok l) (hr : Term.ofExpr param rhs = .ok r)
    (hc : l.ordering? op r = some c) : Body.ordering param op lhs rhs = .ok c := by
  refine bind_eq_ok_iff.mpr ⟨some l, term?_eq_some_iff.mpr hl, ?_⟩
  refine bind_eq_ok_iff.mpr ⟨some r, term?_eq_some_iff.mpr hr, ?_⟩
  rw [Option.bind_some, Option.bind_some, hc]

theorem sub?_zero (n : Int64) : Word.sub? n 0 = some n := by
  rw [Word.sub?_eq_some_iff, Int64.toInt_zero, Int.sub_zero]

theorem condition_congruent {offset modulus : Int64} (hoffset : offset ≠ Int64.minValue)
    (hmodulus : 0 < modulus) :
    Body.condition (some "x") (congruent offset modulus).tree =
      .ok (congruent offset modulus) := by
  have hresidue : Term.ofExpr (some "x")
      (.binary (.arith .rem) (Word.shiftTree offset) (Word.tree modulus)) =
      .ok (.residue offset modulus) := by
    have hne : modulus ≠ Int64.minValue := by
      rintro rfl
      exact absurd hmodulus (by decide)
    refine bind_eq_ok_iff.mpr ⟨_, Word.ofExpr_shiftTree hoffset, ?_⟩
    refine bind_eq_ok_iff.mpr ⟨_, Word.ofExpr_tree hne, ?_⟩
    exact if_pos hmodulus
  have hequality : (Term.residue offset modulus).equality? (.const 0) =
      some (congruent offset modulus) := by
    show (Term.residue offset modulus).equalsConst? 0 = _
    rw [Term.equalsConst?, sub?_zero, if_pos]
    · rfl
    · simpa using hmodulus
  rw [tree, Body.condition]
  exact equalityOf_of_terms hresidue rfl hequality

theorem condition_equals {n : Int64} (h : n ≠ Int64.minValue) :
    Body.condition (some "x") (equals n).tree = .ok (equals n) := by
  rw [tree, Body.condition]
  refine equalityOf_of_terms (l := .step 0) rfl (Word.ofExpr_tree h) ?_
  show (Word.sub? n 0).map equals = _
  rw [sub?_zero]
  rfl

/-- A written bound comes back as it was. -/
theorem condition_bound (op : OrderOp) {n : Int64} (h : n ≠ Int64.minValue) :
    Body.condition (some "x") (.binary (.order op) (.var "x") (Word.tree n)) =
      .ok (Term.bound op n) := by
  rw [Body.condition]
  refine ordering_of_terms (l := .step 0) rfl (Word.ofExpr_tree h) ?_
  show (Word.sub? n 0).map (Term.bound op) = _
  rw [sub?_zero]
  rfl

/-- An equality of arithmetic is accepted. -/
theorem equalityOf_of_stepExpr {t u : Option Term} {a b : StepExpr} {cl cr : Except (Halt BodyError) Condition}
    (ht : Body.term? param lhs = .ok t) (hu : Body.term? param rhs = .ok u)
    (ha : Body.stepExpr param lhs = .ok a) (hb : Body.stepExpr param rhs = .ok b)
    (hl : lhs.isBoolean = false) (hr : rhs.isBoolean = false) :
    ∃ c, Body.equalityOf param lhs rhs cl cr = .ok c := by
  rcases hterms : t.bind fun t ↦ u.bind t.equality? with - | c
  · refine ⟨.comparison .eq a b, bind_eq_ok_iff.mpr ⟨t, ht, bind_eq_ok_iff.mpr ⟨u, hu, ?_⟩⟩⟩
    rw [hterms, hl, hr, ha, hb]
    rfl
  · refine ⟨c, bind_eq_ok_iff.mpr ⟨t, ht, bind_eq_ok_iff.mpr ⟨u, hu, ?_⟩⟩⟩
    rw [hterms]

/-- An ordering of arithmetic is accepted. -/
theorem ordering_of_stepExpr {op : OrderOp} {t u : Option Term} {a b : StepExpr}
    (ht : Body.term? param lhs = .ok t) (hu : Body.term? param rhs = .ok u)
    (ha : Body.stepExpr param lhs = .ok a) (hb : Body.stepExpr param rhs = .ok b) :
    ∃ c, Body.ordering param op lhs rhs = .ok c := by
  rcases hterms : t.bind fun t ↦ u.bind (t.ordering? op) with - | c
  · refine ⟨.comparison (.order op) a b,
      bind_eq_ok_iff.mpr ⟨t, ht, bind_eq_ok_iff.mpr ⟨u, hu, ?_⟩⟩⟩
    rw [hterms]
    exact bind_eq_ok_iff.mpr ⟨a, Body.arithmetic_eq_ok_iff.mpr ha,
      bind_eq_ok_iff.mpr ⟨b, Body.arithmetic_eq_ok_iff.mpr hb, rfl⟩⟩
  · refine ⟨c, bind_eq_ok_iff.mpr ⟨t, ht, bind_eq_ok_iff.mpr ⟨u, hu, ?_⟩⟩⟩
    rw [hterms]

theorem holds_equality {lhs rhs : StepExpr} (hlexact : lhs.IsExact) (hrexact : rhs.IsExact)
    (h : Body.condition (some "x") (compare .eq lhs rhs).tree = .ok c) {x : Int64}
    (hl : lhs.InBounds x) (hr : rhs.InBounds x) :
    c.holds x = (compare .eq lhs rhs).holds x := by
  have hlt := tame_of_inBounds lhs.tree (StepExpr.inBounds_tree hlexact hl)
  have hrt := tame_of_inBounds rhs.tree (StepExpr.inBounds_tree hrexact hr)
  have hno (e : StepExpr) (hconnective : Host.isConnective e.tree = true) :
      Host.IsTruthValue (some "x") (.num (.int x)) e.tree := by
    cases e.isConnective_tree.symm.trans hconnective
  rw [tree, CmpOp.inScript, Body.condition] at h
  rw [equality_holds h (hno lhs) (hno rhs) hlt hrt (lhs.settled_tree _) (rhs.settled_tree _)
    (fun c hc ↦ condition_holds hc (hasTruthSides_of_plain _ lhs.plainEqualities_tree) hlt)
    (fun c hc ↦ condition_holds hc (hasTruthSides_of_plain _ rhs.plainEqualities_tree) hrt),
    StepExpr.eval_tree hlexact, StepExpr.eval_tree hrexact, compare_holds]
  cases lhs.eval x <;> cases rhs.eval x <;> rfl

theorem holds_ordering {op : OrderOp} {lhs rhs : StepExpr} (hlexact : lhs.IsExact)
    (hrexact : rhs.IsExact)
    (h : Body.condition (some "x") (compare (.order op) lhs rhs).tree = .ok c) {x : Int64}
    (hl : lhs.InBounds x) (hr : rhs.InBounds x) :
    c.holds x = (compare (.order op) lhs rhs).holds x := by
  rw [tree, CmpOp.inScript, Body.condition] at h
  have hlt := tame_of_inBounds lhs.tree (StepExpr.inBounds_tree hlexact hl)
  have hrt := tame_of_inBounds rhs.tree (StepExpr.inBounds_tree hrexact hr)
  rw [ordering_holds h hlt hrt, StepExpr.eval_tree hlexact, StepExpr.eval_tree hrexact,
    number?_map_num, number?_map_num, compare_holds]

/-- The condition, written and read, is one that means the same in bounds. -/
def ReadsBack (c : Condition) : Prop :=
  ∃ d, Body.condition (some "x") c.tree = .ok d ∧
    ∀ x, c.ForSides (StepExpr.InBounds x) → d.holds x = c.holds x

theorem ReadsBack.of_same (h : Body.condition (some "x") c.tree = .ok c) : c.ReadsBack :=
  ⟨c, h, fun _ _ ↦ rfl⟩

theorem readsBack_compare (op : CmpOp) {lhs rhs : StepExpr} (hlexact : lhs.IsExact)
    (hrexact : rhs.IsExact) (hlfit : lhs.RemaindersFit) (hrfit : rhs.RemaindersFit) :
    (compare op lhs rhs).ReadsBack := by
  obtain ⟨t, ht⟩ := StepExpr.term?_tree hlexact hlfit
  obtain ⟨u, hu⟩ := StepExpr.term?_tree hrexact hrfit
  obtain ⟨a, ha⟩ := StepExpr.stepExpr_tree hlexact
  obtain ⟨b, hb⟩ := StepExpr.stepExpr_tree hrexact
  cases op with
  | eq =>
    obtain ⟨c, hc⟩ := equalityOf_of_stepExpr ht hu ha hb lhs.isBoolean_tree rhs.isBoolean_tree
    have hcondition : Body.condition (some "x") (compare .eq lhs rhs).tree = .ok c := by
      rw [tree, CmpOp.inScript, Body.condition]
      exact hc
    exact ⟨c, hcondition, fun x h ↦ holds_equality hlexact hrexact hcondition h.1 h.2⟩
  | order op =>
    obtain ⟨c, hc⟩ : ∃ c, Body.ordering (some "x") op lhs.tree rhs.tree = .ok c :=
      ordering_of_stepExpr ht hu ha hb
    have hcondition : Body.condition (some "x") (compare (.order op) lhs rhs).tree = .ok c := by
      rw [tree, CmpOp.inScript, Body.condition]
      exact hc
    exact ⟨c, hcondition, fun x h ↦ holds_ordering hlexact hrexact hcondition h.1 h.2⟩

/-- The bounds among the conditions. -/
theorem readsBack_bound (op : OrderOp) {n : Int64} (h : n ≠ Int64.minValue) :
    (Term.bound op n).ReadsBack := by
  have hread := condition_bound op h
  cases op <;> exact .of_same hread

/-! ### Connectives -/

theorem condition_join_iff {k : Connective} {a b : Expr} {c : Condition} :
    Body.condition param (.binary k.operator a b) = .ok c ↔
      ∃ l r, Body.condition param a = .ok l ∧ Body.condition param b = .ok r ∧ k.join l r = c := by
  cases k <;>
    simp only [Connective.operator, Body.condition, bind_eq_ok_iff, Except.ok.injEq,
      exists_and_left] <;>
    rfl

/-- A value that is settled by the first member or by another one is that of the connective. -/
theorem eq_holds_of_members {k : Connective} {v : Bool} {x : Int64} {cs : List Condition}
    (h : v = k.settling ↔ c.holds x = k.settling ∨ ∃ d ∈ cs, d.holds x = k.settling) :
    v = (k.condition (c :: cs)).holds x := by
  refine Connective.eq_of_settling_iff (h.trans ?_)
  rw [Connective.condition_holds_iff, List.exists_mem_cons_iff]

mutual

/-- **A written condition**, read, means the same in bounds. -/
theorem readsBack_of_isExact : (c : Condition) → c.IsExact → c.validate = .ok () →
    c.ForSides StepExpr.RemaindersFit → c.ReadsBack
  | .const value, _, _, _ => .of_same rfl
  | .congruent offset modulus, hexact, hvalid, _ => by
    have hpos := Word.pos_iff.mpr (validate_congruent_iff.mp hvalid)
    exact .of_same (condition_congruent hexact.1 hpos)
  | .equals _, hexact, _, _ => .of_same (condition_equals hexact)
  | .lessThan _, hexact, _, _ => readsBack_bound .lt hexact
  | .atMost _, hexact, _, _ => readsBack_bound .le hexact
  | .greaterThan _, hexact, _, _ => readsBack_bound .gt hexact
  | .atLeast _, hexact, _, _ => readsBack_bound .ge hexact
  | .compare op _ _, hexact, _, hfit => readsBack_compare op hexact.1 hexact.2 hfit.1 hfit.2
  | .any [], _, _, _ => ⟨.const false, rfl, fun _ _ ↦ rfl⟩
  | .any (c :: cs), hexact, hvalid, hfit => by
    obtain ⟨hc, hcs⟩ := validateEach_cons_iff.mp hvalid
    obtain ⟨d, hd, hholds⟩ := readsBack_of_isExact c hexact.1 hc hfit.1
    -- the written chain leans to the left, so the first member starts it
    obtain ⟨e, he, hmembers⟩ := chain_readsBack .any cs hexact.2 hcs hfit.2 hd
    exact ⟨e, he, fun x hx ↦ eq_holds_of_members (hholds x hx.1 ▸ hmembers x hx.2)⟩
  | .all [], _, _, _ => ⟨.const true, rfl, fun _ _ ↦ rfl⟩
  | .all (c :: cs), hexact, hvalid, hfit => by
    obtain ⟨hc, hcs⟩ := validateEach_cons_iff.mp hvalid
    obtain ⟨d, hd, hholds⟩ := readsBack_of_isExact c hexact.1 hc hfit.1
    obtain ⟨e, he, hmembers⟩ := chain_readsBack .all cs hexact.2 hcs hfit.2 hd
    exact ⟨e, he, fun x hx ↦ eq_holds_of_members (hholds x hx.1 ▸ hmembers x hx.2)⟩
  | .not operand, hexact, hvalid, hfit => by
    obtain ⟨d, hd, hholds⟩ := readsBack_of_isExact operand hexact hvalid hfit
    refine ⟨d.negate, bind_eq_ok_iff.mpr ⟨d, hd, rfl⟩, fun x hx ↦ ?_⟩
    rw [negate_holds, hholds x hx]
    rfl

/-- Further members, joined to what comes before them. -/
theorem chain_readsBack (k : Connective) : (cs : List Condition) → EachExact cs →
    validateEach cs = .ok () → EachForSides StepExpr.RemaindersFit cs →
      ∀ {first : Expr} {d : Condition}, Body.condition (some "x") first = .ok d →
        ∃ e, Body.condition (some "x") (chain k.operator first cs) = .ok e ∧
          ∀ x, EachForSides (StepExpr.InBounds x) cs → (e.holds x = k.settling ↔
            d.holds x = k.settling ∨ ∃ c ∈ cs, c.holds x = k.settling)
  | [], _, _, _, _, d, hd => ⟨d, hd, fun _ _ ↦ by simp⟩
  | c :: cs, hexact, hvalid, hfit, first, d, hd => by
    obtain ⟨hc, hcs⟩ := validateEach_cons_iff.mp hvalid
    obtain ⟨d', hd', hholds⟩ := readsBack_of_isExact c hexact.1 hc hfit.1
    have hjoined : Body.condition (some "x") (.binary k.operator first c.tree) = .ok (k.join d d') :=
      condition_join_iff.mpr ⟨d, d', hd, hd', rfl⟩
    obtain ⟨e, he, hmembers⟩ := chain_readsBack k cs hexact.2 hcs hfit.2 hjoined
    refine ⟨e, he, fun x hx ↦ ?_⟩
    rw [hmembers x hx.2, Connective.join_holds_iff, hholds x hx.1, or_assoc,
      List.exists_mem_cons_iff]

end

end Condition

/-! ### Rules -/

namespace Rule

theorem value_outcome {outcome : Outcome} (h : (Rule.answer outcome).IsExact) :
    Body.value (some "x") outcome.tree = .ok (.answer outcome) := by
  cases outcome with
  | true | false | nil => rfl
  | sentinel n =>
    have hterm := term?_eq_some_iff.mpr (Word.ofExpr_tree (show n ≠ Int64.minValue from h))
    rw [Outcome.tree]
    rw [Word.tree] at hterm ⊢
    split
    · next hneg =>
      rw [if_pos hneg] at hterm
      exact bind_eq_ok_iff.mpr ⟨_, hterm, rfl⟩
    · rfl

/-- **The statements that a rule is written as**, read, give a rule with the same answers in
bounds. -/
theorem block_of_ruleBody {rule : Rule} {body : List Stmt} (hexact : rule.IsExact)
    (hvalid : rule.validate = .ok ()) (hfit : rule.RemaindersFit) (h : RuleBody rule body) :
    ∃ r, Body.block (some "x") body = .ok r ∧
      ∀ x, rule.InBounds x → r.outcome x = rule.outcome x := by
  induction rule generalizing body with
  | answer outcome =>
    obtain ⟨line, rfl⟩ := h
    refine ⟨.answer outcome, ?_, fun _ _ ↦ rfl⟩
    rw [Body.block, mapError_eq_ok_iff]
    exact value_outcome hexact
  | test condition taken otherwise iht iho =>
    obtain ⟨line, s, t, rfl, hs, ht⟩ := h
    obtain ⟨hvcondition, hvtaken, hvotherwise⟩ := validate_test_iff.mp hvalid
    obtain ⟨c, hc, hholds⟩ :=
      Condition.readsBack_of_isExact condition hexact.1 hvcondition hfit.1
    obtain ⟨a, ha, htaken⟩ := iht hexact.2.1 hvtaken hfit.2.1 hs
    obtain ⟨b, hb, hotherwise⟩ := iho hexact.2.2 hvotherwise hfit.2.2 ht
    refine ⟨Body.branch c a b, Body.block_cond_eq_ok_iff.mpr ⟨a, b, c, ha, hb, hc, rfl⟩, fun x hx ↦ ?_⟩
    rw [branch_outcome, hholds x hx.1, Rule.outcome]
    -- only the branch that is taken has to be in bounds
    rcases hcondition : condition.holds x with - | -
    · exact hotherwise x (hx.2.2 hcondition)
    · exact htaken x (hx.2.1 hcondition)
  | rebase shift rule ih =>
    obtain ⟨line, rest, rfl, hrest⟩ := h
    obtain ⟨r, hr, houtcome⟩ := ih hexact.2 hvalid hfit hrest
    refine ⟨.rebase shift r, ?_, fun x hx ↦ houtcome (x - shift) hx⟩
    have hterm := term?_eq_some_iff.mpr (Word.ofExpr_shiftTree (Word.neg_ne_minValue hexact.1))
    rw [Body.block, if_pos rfl]
    refine bind_eq_ok_iff.mpr ⟨_, hterm, ?_⟩
    refine bind_eq_ok_iff.mpr ⟨shift, granted_eq_ok_iff.mpr (Word.neg?_neg hexact.1), ?_⟩
    exact bind_eq_ok_iff.mpr ⟨r, hr, rfl⟩

end Rule

end StepSequencer
