import StepSequencer.Proofs.Number.Signs
import StepSequencer.Proofs.Script.Layout
import StepSequencer.Proofs.Script.Legibility
import StepSequencer.Proofs.Script.WrittenScript

/-!
# Step expressions, written and read back

The text of an expression is parsed as one expression, and `StepExpr.readTree` is its tree. That is the
expression's own tree, node for node (`StepExpr.literalTree`), as long as no power has the negative zero
as its base: every other base with a minus is put between parentheses, but the negative zero is not
below zero, so the power goes to what stands after its minus (`parse_exprText_iff`).

A float is given by its sign and its magnitude here, and the text of the magnitude is assumed to be
read as the magnitude (`KeepsDecimal`).
-/

namespace StepSequencer

open Script (Expr Stmt numberText)

/-! ### Trees -/

/-- The literal of a number, or the negation of its magnitude's literal if it has a sign. -/
def Num.literal : Num → Expr
  | .int n => Word.tree n
  | .float x => if (Binary.ofDouble x).isNegative then .unary .neg (.float x.abs) else .float x

/-- Whether the number has a sign. -/
def Num.isSigned : Num → Bool
  | .int n => n.toInt < 0
  | .float x => (Binary.ofDouble x).isNegative

namespace StepExpr

/-- The expression as a syntax tree, node for node. -/
def literalTree : StepExpr → Expr
  | .step => .var "x"
  | .const value => value.literal
  | .neg operand => .unary .neg operand.literalTree
  | .binary op lhs rhs => .binary (.arith op) lhs.literalTree rhs.literalTree

/-- Whether the expression is the negative zero. -/
def isNegativeZero : StepExpr → Bool
  | .const (.float x) => x = -0.0
  | _ => false

/-- The tree that the text of the expression is read as. -/
def readTree : StepExpr → Expr
  | .step => .var "x"
  | .const value => value.literal
  | .neg operand => .unary .neg operand.readTree
  | .binary op lhs rhs =>
    if op = .pow && lhs.isNegativeZero then
      .unary .neg (.binary (.arith .pow) (.float 0.0) rhs.readTree)
    else .binary (.arith op) lhs.readTree rhs.readTree

/-- No power has the negative zero as its base. -/
def AvoidsNegativeZeroBase : StepExpr → Prop
  | .step | .const _ => True
  | .neg operand => operand.AvoidsNegativeZeroBase
  | .binary op lhs rhs => (op = .pow → lhs.isNegativeZero = false) ∧
    lhs.AvoidsNegativeZeroBase ∧ rhs.AvoidsNegativeZeroBase

/-- Only a power of the negative zero is read as another tree. -/
theorem readTree_eq_iff {e : StepExpr} : e.readTree = e.literalTree ↔ e.AvoidsNegativeZeroBase := by
  induction e with
  | step | const value => exact iff_of_true rfl trivial
  | neg operand ih =>
    rw [readTree, literalTree, Expr.unary.injEq, and_iff_right rfl, ih]
    rfl
  | binary op lhs rhs ihl ihr =>
    rw [readTree, literalTree, AvoidsNegativeZeroBase]
    split
    · next h =>
      rw [Bool.and_eq_true, decide_eq_true_eq] at h
      exact iff_of_false nofun fun havoids ↦ Bool.false_ne_true ((havoids.1 h.1).symm.trans h.2)
    · next h =>
      rw [Bool.and_eq_true, decide_eq_true_eq, not_and, Bool.not_eq_true] at h
      rw [Expr.binary.injEq, and_iff_right rfl, ihl, ihr, and_iff_right h]

/-- Whether the text of the expression begins with a minus. -/
def isSigned : StepExpr → Bool
  | .const value => value.isSigned
  | _ => false

/-- The floats of the expression are finite. -/
def IsFinite (e : StepExpr) : Prop := ∀ x ∈ e.floats, x.isFinite = true

end StepExpr

/-- The text of the float, which is digits on both sides of a point, is read as the float. -/
def KeepsDecimal (x : Float) : Prop :=
  ∀ whole fraction, (numberText (.float x)).toList = whole ++ '.' :: fraction →
    (Decimal.ofDigits whole fraction 0).toDouble = x

namespace Script

/-! ### Constants -/

theorem literal_written {x : Float} (hfinite : x.isFinite = true) (hkeeps : KeepsDecimal x.abs) :
    if (Binary.ofDouble x).isNegative then ∃ rest, (numberText (.float x)).toList = '-' :: rest ∧
      Written rest (SpellsPrimary · (.float x.abs))
    else Written (numberText (.float x)).toList (SpellsPrimary · (.float x)) := by
  obtain ⟨negative, m, e, hx⟩ := Binary.exists_ofDouble hfinite
  have hfinite' := Float.isFinite_abs hfinite
  have htext := numberText_finite (Float.not_isNaN_of_isFinite hfinite)
    (Float.not_isInf_of_isFinite hfinite) hx
  have habs := numberText_finite (Float.not_isNaN_of_isFinite hfinite')
    (Float.not_isInf_of_isFinite hfinite') (Binary.ofDouble_abs hfinite hx)
  rw [if_neg Bool.false_ne_true, String.empty_append] at habs
  obtain ⟨whole, fraction, hwhole, hfraction, hdigits⟩ :=
    NumberLayout.exists_positional (Decimal.shortest .double .up m e)
  have hvalue := hkeeps whole fraction ((congrArg String.toList habs).trans hdigits)
  have hmagnitude := point_written hwhole.toIsDigits hfraction
  rw [hvalue, ← hdigits] at hmagnitude
  have hsign : (Binary.ofDouble x).isNegative = negative := congrArg Binary.isNegative hx
  rw [hsign]
  cases negative with
  | true =>
    refine ⟨_, ?_, hmagnitude⟩
    rw [htext, String.toList_append]
    rfl
  | false =>
    rw [Float.abs_eq_self hfinite hsign] at hmagnitude
    rw [htext, if_neg Bool.false_ne_true, if_neg Bool.false_ne_true, String.empty_append]
    exact hmagnitude

/-- The text of a float, from the binary number it is and the digits of its magnitude. -/
theorem numberText_eq {x : Float} {negative : Bool} {m : Nat} {e : Int} {digits : String}
    (hfinite : x.isFinite = true) (hx : Binary.ofDouble x = .finite negative m e)
    (hdigits : NumberLayout.positional true (Decimal.shortest .double .up m e) = digits) :
    numberText (.float x) = (if negative then "-" else "") ++ digits := by
  rw [numberText_finite (Float.not_isNaN_of_isFinite hfinite)
    (Float.not_isInf_of_isFinite hfinite) hx, hdigits]

theorem keepsDecimal_of_text {x : Float} {whole fraction : List Char}
    (htext : (numberText (.float x)).toList = whole ++ '.' :: fraction)
    (hwhole : '.' ∉ whole) (hfraction : '.' ∉ fraction)
    (hvalue : (Decimal.ofDigits whole fraction 0).toDouble = x) : KeepsDecimal x := by
  intro whole' fraction' h
  obtain ⟨rfl, -, rfl⟩ :=
    (List.append_cons_inj_of_notMem hwhole hfraction).mp (htext.symm.trans h)
  exact hvalue

/-- A constant spells its literal, by itself if it has no sign. -/
theorem const_written {n : Num} (hleast : (StepExpr.const n).AvoidsLeast)
    (hfinite : (StepExpr.const n).IsFinite) (hkeeps : ∀ x ∈ n.floats, KeepsDecimal x.abs) :
    IsOperand (numberText n).toList n.literal ∧
      (n.isSigned = false → Written (numberText n).toList (SpellsPrimary · n.literal)) := by
  cases n with
  | int n =>
    refine ⟨isOperand_whole hleast, fun hsign ↦ ?_⟩
    exact (whole_written hleast).mono fun _ h ↦ h.2 (Int.not_lt.mp (of_decide_eq_false hsign))
  | float x =>
    have hwritten := literal_written (hfinite x (List.mem_singleton_self x))
      (hkeeps x (List.mem_singleton_self x))
    rw [Num.literal, Num.isSigned]
    cases hsign : (Binary.ofDouble x).isNegative with
    | true =>
      rw [hsign] at hwritten
      obtain ⟨rest, htext, hrest⟩ := hwritten
      exact ⟨.inr ⟨rest, _, htext, rfl, hrest⟩, nofun⟩
    | false =>
      rw [hsign] at hwritten
      exact ⟨.inl hwritten, fun _ ↦ hwritten⟩

/-! ### Expressions -/

/-- A base with a sign is put between parentheses, unless it is the negative zero. -/
theorem isNegativeZero_of_isSigned {e : StepExpr} (hfinite : e.IsFinite) (hsigned : e.isSigned = true)
    (h : isNegativeConst e = false) : e.isNegativeZero = true := by
  cases e with
  | step | neg | binary => cases hsigned
  | const value =>
    cases value with
    | int n => exact absurd (h.symm.trans hsigned) Bool.false_ne_true
    | float x =>
      rcases Float.lt_zero_or_eq (hfinite x (List.mem_singleton_self x)) hsigned with hlt | heq
      · exact absurd hlt (of_decide_eq_false h)
      · exact decide_eq_true heq

/-- What the text of an expression is: an operand, and one by itself if it has no sign. -/
structure IsReadBack (e : StepExpr) : Prop where
  operand : IsOperand (exprText e).toList e.readTree
  primary : e.isSigned = false → Written (exprText e).toList (SpellsPrimary · e.readTree)

theorem IsReadBack.of_primary {e : StepExpr} (h : Written (exprText e).toList (SpellsPrimary · e.readTree)) :
    IsReadBack e := ⟨.inl h, fun _ ↦ h⟩

/-- The power of the negative zero, whose minus stands before the whole power. -/
theorem negativeZero_power_written {rhs : StepExpr} (hr : IsReadBack rhs)
    (hkeeps : KeepsDecimal (-0.0 : Float).abs) :
    Written (exprText (.binary .pow (.const (.float (-0.0))) rhs)).toList
      (SpellsPrimary · (.unary .neg (.binary (.arith .pow) (.float 0.0) rhs.readTree))) := by
  have hnegative : (Binary.ofDouble (-0.0)).isNegative = true := by decide +kernel
  have hmagnitude : (-0.0 : Float).abs = 0.0 := by decide +kernel
  have hbare : baseText .pow (.const (.float (-0.0))) = numberText (.float (-0.0)) := by
    have hnot : ¬((-0.0 : Float) < 0) := by decide +kernel
    rw [baseText, isNegativeConst, decide_eq_false hnot, Bool.and_false, if_neg Bool.false_ne_true]
    rfl
  have hwritten := literal_written (x := -0.0) (by decide +kernel) hkeeps
  rw [hnegative, if_pos rfl, hmagnitude] at hwritten
  obtain ⟨rest, htext, hrest⟩ := hwritten
  rw [exprText_binary, hbare, htext]
  have hpower := (Written.power hrest hr.operand.unary).neg
  exact (hpower.mono fun _ h ↦ h.spells levels).paren

theorem eq_of_isNegativeZero {e : StepExpr} (h : e.isNegativeZero = true) :
    e = .const (.float (-0.0)) := by
  cases e with
  | step | neg | binary => cases h
  | const value =>
    cases value with
    | int n => cases h
    | float x => rw [show x = -0.0 from of_decide_eq_true h]

/-- **The text of an expression** spells the tree it is read as. -/
theorem isReadBack {e : StepExpr} (hleast : e.AvoidsLeast) (hfinite : e.IsFinite)
    (hkeeps : ∀ x ∈ e.floats, KeepsDecimal x.abs) : IsReadBack e := by
  induction e with
  | step => exact .of_primary .step
  | const value =>
    obtain ⟨hoperand, hprimary⟩ := const_written hleast hfinite hkeeps
    exact ⟨hoperand, hprimary⟩
  | neg operand ih =>
    refine .of_primary ?_
    rw [exprText, String.toList_append, String.toList_append]
    exact ((ih hleast hfinite hkeeps).operand.unary.neg.mono fun _ h ↦ h.spells levels).paren
  | binary op lhs rhs ihl ihr =>
    obtain ⟨hlfinite, hrfinite⟩ := List.forall_mem_append.mp hfinite
    obtain ⟨hlkeeps, hrkeeps⟩ := List.forall_mem_append.mp hkeeps
    have hl := ihl hleast.1 hlfinite hlkeeps
    have hr := ihr hleast.2 hrfinite hrkeeps
    refine .of_primary ?_
    rw [StepExpr.readTree]
    split
    · next h =>
      -- the sign of a negative zero stands before the whole power
      rw [Bool.and_eq_true, decide_eq_true_eq] at h
      obtain ⟨rfl, hzero⟩ := h
      obtain rfl := eq_of_isNegativeZero hzero
      exact negativeZero_power_written hr (hlkeeps _ (List.mem_singleton_self _))
    · next h =>
      rw [Bool.and_eq_true, decide_eq_true_eq, not_and, Bool.not_eq_true] at h
      have hleft : Written (baseText op lhs).toList fun toks ↦
          SpellsUnary toks lhs.readTree ∧ (op = .pow → SpellsPrimary toks lhs.readTree) := by
        rw [baseText]
        split
        · -- a negative base
          rw [String.toList_append, String.toList_append]
          exact (hl.operand.unary.mono fun _ h ↦ h.spells levels).paren.mono
            fun _ h ↦ ⟨h.unary, fun _ ↦ h⟩
        · next hplain =>
          by_cases hpow : op = .pow
          · -- no other base without parentheses has a sign
            rw [decide_eq_true hpow, Bool.true_and, Bool.not_eq_true] at hplain
            have hsigned : lhs.isSigned = false := by
              refine Bool.eq_false_iff.mpr fun hsigned ↦ ?_
              have hzero := isNegativeZero_of_isSigned hlfinite hsigned hplain
              exact Bool.false_ne_true ((h hpow).symm.trans hzero)
            exact (hl.primary hsigned).mono fun _ h ↦ ⟨h.unary, fun _ ↦ h⟩
          · exact hl.operand.unary.mono fun _ h ↦ ⟨h, fun h ↦ absurd h hpow⟩
      rw [exprText_binary]
      exact Written.arith op hleft hr.operand.unary

/-! ### Reading -/

/-- An operand alone on its line is a statement. -/
theorem IsOperand.statement {text : List Char} {e : Expr} (h : IsOperand text e) :
    Written text fun toks ↦
      StatementReads toks (fun s ↦ ∃ line, s = .expr line e) ∧ Unbroken toks := by
  rcases h with h | ⟨rest, operand, rfl, rfl, h⟩
  · exact h.mono fun toks h ↦ ⟨(simpleReads_expr (.primary h)).statement, h.unbroken⟩
  · have hminus (rest) : Lexes ['-'] [.sign .minus] rest := .of_lexemes (n := 1) rfl
    refine (h.after hminus).mono ?_
    rintro _ ⟨toks, rfl, h⟩
    have hneg : SpellsUnary (.sign .minus :: toks) (.unary .neg operand) := .leading rfl h.unary
    exact ⟨(simpleReads_whole (hneg.spells levels) rfl nofun).statement, hneg.unbroken⟩

theorem IsOperand.parsed {text : String} {e : Expr} (h : IsOperand text.toList e) :
    ∃ line, parse text = .ok [.expr line e] := by
  obtain ⟨toks, ⟨hreads, hunbroken⟩, hlexes⟩ := h.statement
  have hne : toks ≠ [] := by
    obtain ⟨t, ts, rfl, -⟩ := hreads.begins
    exact List.cons_ne_nil t ts
  obtain ⟨ts, htokens, htoks⟩ := tokenize_of_unbroken (hlexes [] rfl) hne hunbroken
  obtain ⟨_, ⟨_, rfl, line, rfl⟩, hblock⟩ := hreads.line.whole htoks
  refine ⟨line, ?_⟩
  rw [parse, htokens]
  show (parseTokens ts).mapError ReadError.grammar = _
  rw [hblock]
  rfl

/-- **The text of an expression** is parsed as one expression, and `readTree` is its tree. -/
theorem parse_exprText {e : StepExpr} (hleast : e.AvoidsLeast) (hfinite : e.IsFinite)
    (hkeeps : ∀ x ∈ e.floats, KeepsDecimal x.abs) :
    ∃ line, parse (exprText e) = .ok [.expr line e.readTree] :=
  (isReadBack hleast hfinite hkeeps).operand.parsed

/-- **The text of an expression is parsed as the expression**, node for node, as long as no power has
the negative zero as its base. -/
theorem parse_exprText_iff {e : StepExpr} (hleast : e.AvoidsLeast) (hfinite : e.IsFinite)
    (hkeeps : ∀ x ∈ e.floats, KeepsDecimal x.abs) :
    (∃ line, parse (exprText e) = .ok [.expr line e.literalTree]) ↔ e.AvoidsNegativeZeroBase := by
  rw [← StepExpr.readTree_eq_iff]
  obtain ⟨line, hread⟩ := parse_exprText hleast hfinite hkeeps
  rw [hread]
  constructor
  · rintro ⟨line', h⟩
    injection h with h
    injection h with h
    injection h
  · intro h
    exact ⟨line, by rw [h]⟩

theorem parse_exprText_negative_base :
    let e : StepExpr := .binary .pow (.const (.float (-2.5))) (.neg .step)
    e.AvoidsLeast ∧ e.IsFinite ∧ (∀ x ∈ e.floats, KeepsDecimal x.abs) ∧
      ∃ line, parse (exprText e) = .ok [.expr line
        (.binary (.arith .pow) (.unary .neg (.float 2.5)) (.unary .neg (.var "x")))] := by
  intro e
  have hfloats {P : Float → Prop} (h : P (-2.5)) : ∀ x ∈ e.floats, P x :=
    List.forall_mem_singleton.mpr h
  have hmagnitude : (-2.5 : Float).abs = 2.5 := by decide +kernel
  have hbinary : Binary.ofDouble 2.5 = .finite false (5 * 2 ^ 50) (-51) := by decide +kernel
  have hdigits : NumberLayout.positional true (Decimal.shortest .double .up (5 * 2 ^ 50) (-51)) =
      "2.5" := by decide +kernel
  have htext : (numberText (.float 2.5)).toList = ['2'] ++ '.' :: ['5'] :=
    congrArg String.toList (numberText_eq (by decide +kernel) hbinary hdigits)
  have hkeeps : KeepsDecimal (-2.5 : Float).abs := by
    rw [hmagnitude]
    exact keepsDecimal_of_text htext (by decide) (by decide) (by decide +kernel)
  have hleast : e.AvoidsLeast := ⟨trivial, trivial⟩
  have hfinite : e.IsFinite := hfloats (by decide +kernel)
  have hbase : (StepExpr.const (.float (-2.5))).isNegativeZero = false := by decide +kernel
  obtain ⟨line, hread⟩ := (parse_exprText_iff hleast hfinite (hfloats hkeeps)).mpr
    ⟨fun _ ↦ hbase, trivial, trivial⟩
  refine ⟨hleast, hfinite, hfloats hkeeps, line, ?_⟩
  have hsign : (Binary.ofDouble (-2.5)).isNegative = true := by decide +kernel
  rw [hread, StepExpr.literalTree, StepExpr.literalTree, Num.literal, if_pos hsign, hmagnitude]
  rfl

/-- The power of the negative zero is read as the negation of a power of zero. -/
theorem negativeZero_power_misread :
    let e : StepExpr := .binary .pow (.const (.float (-0.0))) .step
    e.AvoidsLeast ∧ e.IsFinite ∧ (∀ x ∈ e.floats, KeepsDecimal x.abs) ∧
      (∃ line, parse (exprText e) = .ok [.expr line
        (.unary .neg (.binary (.arith .pow) (.float 0.0) (.var "x")))]) ∧
      ¬∃ line, parse (exprText e) = .ok [.expr line e.literalTree] := by
  intro e
  have hfloats {P : Float → Prop} (h : P (-0.0)) : ∀ x ∈ e.floats, P x :=
    List.forall_mem_singleton.mpr h
  have hmagnitude : (-0.0 : Float).abs = 0.0 := by decide +kernel
  have hbinary : Binary.ofDouble 0.0 = .finite false 0 (-1074) := by decide +kernel
  have hdigits : NumberLayout.positional true (Decimal.shortest .double .up 0 (-1074)) = "0.0" := by
    decide +kernel
  have htext : (numberText (.float 0.0)).toList = ['0'] ++ '.' :: ['0'] :=
    congrArg String.toList (numberText_eq (by decide +kernel) hbinary hdigits)
  have hkeeps : KeepsDecimal (-0.0 : Float).abs := by
    rw [hmagnitude]
    exact keepsDecimal_of_text htext (by decide) (by decide) (by decide +kernel)
  have hleast : e.AvoidsLeast := ⟨trivial, trivial⟩
  have hfinite : e.IsFinite := hfloats (by decide +kernel)
  have hbase : (StepExpr.const (.float (-0.0))).isNegativeZero = true := by decide +kernel
  obtain ⟨line, hread⟩ := parse_exprText hleast hfinite (hfloats hkeeps)
  rw [StepExpr.readTree, hbase, Bool.and_true, if_pos (decide_eq_true rfl)] at hread
  refine ⟨hleast, hfinite, hfloats hkeeps, ⟨line, hread⟩, ?_⟩
  rintro ⟨line', h⟩
  rw [hread] at h
  injection h with h
  injection h with h
  injection h with _ h
  cases h

end Script

end StepSequencer
