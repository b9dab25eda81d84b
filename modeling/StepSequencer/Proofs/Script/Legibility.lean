import StepSequencer.Proofs.Json.Numerals
import StepSequencer.Proofs.Number.Floats
import StepSequencer.Proofs.Rule.Stored
import StepSequencer.Proofs.Script.NormalForm

/-!
# Expressions and conditions with any numbers, written

The least word is written as the negation of a number that no word holds. An expression or condition
without it (`AvoidsLeast`) is written as something without calls (`Expr.IsCallFree`), though not always
as its own tree: a float that has no digits is written as a quotient, and a negative float before a
power gives the power to what stands after its minus. Without floats it is exact and written as its
own tree (`legible_expr`, `legible_condition`).
-/

namespace StepSequencer

open Script
open JsonReader (IsDigits isDigits_toDigits)

namespace NumberLayout

/-- A point is all that a positional text may lack. -/
theorem positional_point (d : Decimal) :
    (if '.' ∈ (positional false d).toList then positional false d else positional false d ++ ".0") =
      positional true d := by
  by_cases h : 0 ≤ d.exponent
  · rw [if_neg, positional_of_nonneg h]
    exact fun hmem ↦ Bool.false_ne_true ((isWhole_positional h).digits _ hmem)
  · obtain ⟨whole, fraction, -, -, hpoint⟩ := exists_positional d
    rw [if_pos, positional_of_neg h]
    rw [← positional_of_neg h, hpoint]
    exact List.mem_append_right whole List.mem_cons_self

end NumberLayout

theorem Float.isFinite_of_not {x : Float} (hnan : x.isNaN = false) (hinf : x.isInf = false) :
    x.isFinite = true := by
  have hnan : x.toModel.unpack.isNaN = false := hnan
  have hinf : x.toModel.unpack.isInf = false := hinf
  show x.toModel.unpack.isFinite = true
  cases hx : x.toModel.unpack with
  | notANumber =>
    rw [hx] at hnan
    cases hnan
  | infinity sign =>
    rw [hx] at hinf
    cases hinf
  | zero sign => rfl
  | finite sign m e hpos => rfl

/-! ### Without the least word -/

/-- No constant is the least word. -/
def StepExpr.AvoidsLeast : StepExpr → Prop
  | .step => True
  | .const (.int n) => n ≠ Int64.minValue
  | .const (.float _) => True
  | .neg operand => operand.AvoidsLeast
  | .binary _ lhs rhs => lhs.AvoidsLeast ∧ rhs.AvoidsLeast

namespace Condition

mutual

/-- No number is the least word. -/
def AvoidsLeast : Condition → Prop
  | .const _ => True
  | .congruent offset modulus => offset ≠ Int64.minValue ∧ modulus ≠ Int64.minValue
  | .equals bound | .lessThan bound | .atMost bound | .greaterThan bound | .atLeast bound =>
    bound ≠ Int64.minValue
  | .compare _ lhs rhs => lhs.AvoidsLeast ∧ rhs.AvoidsLeast
  | .any members | .all members => EachAvoidsLeast members
  | .not operand => operand.AvoidsLeast

def EachAvoidsLeast : List Condition → Prop
  | [] => True
  | c :: cs => c.AvoidsLeast ∧ EachAvoidsLeast cs

end

end Condition

namespace Script

/-! ### Numbers -/

/-- The text of a finite float: a minus if it has a sign, and its digits with a point. -/
theorem numberText_finite {x : Float} (hnan : x.isNaN = false) (hinf : x.isInf = false)
    {negative : Bool} {mantissa : Nat} {exponent : Int}
    (hbinary : Binary.ofDouble x = .finite negative mantissa exponent) :
    numberText (.float x) = (if negative then "-" else "") ++
      NumberLayout.positional true (Decimal.shortest .double .up mantissa exponent) := by
  generalize hd : Decimal.shortest .double .up mantissa exponent = d
  have hdouble : NumberLayout.plain.double x = (if negative then "-" else "") ++
      NumberLayout.positional false d := by
    rw [NumberLayout.double, hbinary, NumberLayout.binary, NumberLayout.plain_decimal, ← hd]
    rfl
  have hsign : '.' ∈ (NumberLayout.plain.double x).toList ↔
      '.' ∈ (NumberLayout.positional false d).toList := by
    rw [hdouble, String.toList_append, List.mem_append]
    refine or_iff_right fun hmem ↦ ?_
    cases negative <;> simp at hmem
  rw [numberText, hnan, hinf, if_neg Bool.false_ne_true, if_neg Bool.false_ne_true,
    ← NumberLayout.positional_point]
  simp only [String.contains_char_eq, decide_eq_true_eq]
  by_cases hpoint : '.' ∈ (NumberLayout.positional false d).toList
  · rw [if_pos hpoint, if_pos (hsign.mpr hpoint), hdouble]
  · rw [if_neg hpoint, if_neg (mt hsign.mp hpoint), hdouble, String.append_assoc]

/-- The text of a finite float has digits on both sides of a point, perhaps after a minus. -/
theorem numberText_float {x : Float} (hnan : x.isNaN = false) (hinf : x.isInf = false) :
    ∃ whole fraction, IsDigits whole ∧ IsDigits fraction ∧
      ((numberText (.float x)).toList = whole ++ '.' :: fraction ∨
        (numberText (.float x)).toList = '-' :: (whole ++ '.' :: fraction)) := by
  obtain ⟨negative, mantissa, exponent, hbinary⟩ :=
    Binary.exists_ofDouble (Float.isFinite_of_not hnan hinf)
  obtain ⟨whole, fraction, hwhole, hfraction, htext⟩ :=
    NumberLayout.exists_positional (Decimal.shortest .double .up mantissa exponent)
  refine ⟨whole, fraction, hwhole.toIsDigits, hfraction, ?_⟩
  rw [numberText_finite hnan hinf hbinary, String.toList_append, htext]
  cases negative with
  | false => exact .inl rfl
  | true => exact .inr rfl

/-- Digits on both sides of a point are one lexeme, the float closest to their decimal. -/
theorem numberLexeme_point {c : Char} {cs fraction : List Char}
    (hwhole : ∀ d ∈ c :: cs, d.isDigit = true) (hfraction : IsDigits fraction) :
    numberLexeme c (cs ++ '.' :: fraction) =
      (.token (.float (Decimal.ofDigits (c :: cs) fraction 0).toDouble),
        (cs ++ '.' :: fraction).length) := by
  have hcontinues : ∀ d ∈ cs, continuesNumber d = true := fun d hd ↦
    continuesNumber_of_isDigit (hwhole d (List.mem_cons_of_mem c hd))
  obtain ⟨htake, hdrop⟩ := takeWhile_append_of_head? (r := '.' :: fraction) hcontinues rfl
  have hall : fraction.takeWhile Char.isDigit = fraction :=
    List.takeWhile_eq_self_iff.mpr hfraction.digits
  have hne : fraction.isEmpty = false := List.isEmpty_eq_false_iff.mpr hfraction.nonempty
  have hlength : (c :: cs).length + fraction.length = (cs ++ '.' :: fraction).length := by
    rw [List.length_append, List.length_cons, List.length_cons]
    omega
  rw [numberLexeme, htake, hdrop, ← hlength, List.filter_eq_self.mpr hwhole]
  dsimp only
  split
  · next rest heq => rw [← (List.cons.inj heq).2, hall, hne, if_neg Bool.false_ne_true]
  · next hpoint => exact absurd rfl (hpoint _)

theorem isNumber_point {whole fraction : List Char} (hwhole : IsDigits whole)
    (hfraction : IsDigits fraction) : IsNumber (whole ++ '.' :: fraction)
      (.float (Decimal.ofDigits whole fraction 0).toDouble) := by
  rcases whole with - | ⟨c, cs⟩
  · exact absurd rfl hwhole.nonempty
  have hc : c.isDigit = true := hwhole.digits c List.mem_cons_self
  exact ⟨c, _, rfl, (lexeme_of_isDigit hc).trans (numberLexeme_point hwhole.digits hfraction), rfl⟩

theorem point_written {whole fraction : List Char} (hwhole : IsDigits whole)
    (hfraction : IsDigits fraction) : Written (whole ++ '.' :: fraction)
      (SpellsPrimary · (.float (Decimal.ofDigits whole fraction 0).toDouble)) :=
  ⟨[.float _], .literal rfl, fun _ hrest ↦
    lexes_number (isNumber_point hwhole hfraction) (endsNumber_of_ends hrest)⟩

/-! ### Expressions -/

/-- The text is an operand by itself, or a minus and one. -/
def IsOperand (text : List Char) (e : Expr) : Prop :=
  Written text (SpellsPrimary · e) ∨
    ∃ rest operand, text = '-' :: rest ∧ e = .unary .neg operand ∧
      Written rest (SpellsPrimary · operand)

theorem IsOperand.unary {text : List Char} {e : Expr} (h : IsOperand text e) :
    Written text (SpellsUnary · e) := by
  rcases h with h | ⟨rest, operand, rfl, rfl, h⟩
  · exact h.mono fun _ ↦ SpellsPrimary.unary
  · exact (h.mono fun _ ↦ SpellsPrimary.unary).neg

theorem isOperand_float {x : Float} :
    ∃ t : Expr, t.IsCallFree ∧ IsOperand (numberText (.float x)).toList t := by
  have hdigit (c : Char) (hc : c.isDigit = true) : IsDigits [c] :=
    ⟨List.cons_ne_nil c [], List.forall_mem_singleton.mpr hc⟩
  obtain ⟨zero, hzero⟩ : ∃ zero, Written _ (SpellsPrimary · (.float zero)) :=
    ⟨_, point_written (hdigit '0' rfl) (hdigit '0' rfl)⟩
  obtain ⟨one, hone⟩ : ∃ one, Written _ (SpellsPrimary · (.float one)) :=
    ⟨_, point_written (hdigit '1' rfl) (hdigit '0' rfl)⟩
  have hunary {text : List Char} {e : Expr} (h : Written text (SpellsPrimary · e)) :
      Written text fun toks ↦ SpellsUnary toks e ∧ (ArithOp.div = .pow → SpellsPrimary toks e) :=
    h.mono fun _ hspells ↦ ⟨hspells.unary, nofun⟩
  have hdivisor := hzero.mono fun _ ↦ SpellsPrimary.unary
  -- what is not finite is written as a quotient by zero
  by_cases hnan : x.isNaN = true
  · refine ⟨.binary (.arith .div) (.float zero) (.float zero), ⟨trivial, trivial⟩, .inl ?_⟩
    rw [numberText, if_pos hnan]
    exact Written.arith .div (hunary hzero) hdivisor
  by_cases hinf : x.isInf = true
  · by_cases hneg : x < 0
    · refine ⟨.binary (.arith .div) (.unary .neg (.float one)) (.float zero), ⟨trivial, trivial⟩,
        .inl ?_⟩
      rw [numberText, if_neg hnan, if_pos hinf, if_pos hneg]
      have hminus := (hone.mono fun _ ↦ SpellsPrimary.unary).neg
      exact Written.arith .div (hminus.mono fun _ hspells ↦ ⟨hspells, nofun⟩) hdivisor
    · refine ⟨.binary (.arith .div) (.float one) (.float zero), ⟨trivial, trivial⟩, .inl ?_⟩
      rw [numberText, if_neg hnan, if_pos hinf, if_neg hneg]
      exact Written.arith .div (hunary hone) hdivisor
  obtain ⟨whole, fraction, hwhole, hfraction, htext⟩ :=
    numberText_float (Bool.not_eq_true _ ▸ hnan) (Bool.not_eq_true _ ▸ hinf)
  have hpoint := point_written hwhole hfraction
  rcases htext with htext | htext
  · exact ⟨.float _, trivial, .inl (htext ▸ hpoint)⟩
  · exact ⟨.unary .neg (.float _), trivial, .inr ⟨_, _, htext, rfl, hpoint⟩⟩

theorem isCallFree_word (n : Int64) : (Word.tree n).IsCallFree := by
  rw [Word.tree]
  split <;> trivial

theorem isCallFree_shift (offset : Int64) : (Word.shiftTree offset).IsCallFree := by
  rw [Word.shiftTree]
  split
  · trivial
  · split <;> exact ⟨trivial, trivial⟩

theorem isOperand_whole {n : Int64} (h : n ≠ Int64.minValue) :
    IsOperand (toString n.toInt).toList (Word.tree n) := by
  rw [Word.tree]
  split
  · next hneg =>
    have hmagnitude : (-n).toInt = n.toInt.natAbs := by
      rw [Word.toInt_neg h]
      omega
    exact .inr ⟨_, _, toString_of_neg hneg, rfl, toDigits_written hmagnitude⟩
  · next hnonneg =>
    obtain ⟨m, hm⟩ := Int.eq_ofNat_of_zero_le (Int.not_lt.mp hnonneg)
    rw [hm, toString_ofNat]
    exact .inl (toDigits_written hm)

/-- What an expression is written as. -/
structure IsWrittenExpr (e : StepExpr) (t : Expr) : Prop where
  callFree : t.IsCallFree
  operand : IsOperand (exprText e).toList t
  /-- Without floats it is the expression's own tree, and an operand by itself unless it is a negative
  constant. -/
  exact : e.floats = [] → e.IsExact ∧ t = e.tree ∧
    (isNegativeConst e = false → Written (exprText e).toList (SpellsPrimary · t))

/-- An operand by itself. -/
theorem IsWrittenExpr.of_primary {e : StepExpr} {t : Expr} (hfree : t.IsCallFree)
    (h : Written (exprText e).toList (SpellsPrimary · t))
    (hexact : e.floats = [] → e.IsExact ∧ t = e.tree) : IsWrittenExpr e t :=
  ⟨hfree, .inl h, fun hfloats ↦ ⟨(hexact hfloats).1, (hexact hfloats).2, fun _ ↦ h⟩⟩

/-- The base of an operation, as it stands before the operator. -/
def baseText (op : ArithOp) (lhs : StepExpr) : String :=
  if op = .pow && isNegativeConst lhs then "(" ++ exprText lhs ++ ")" else exprText lhs

theorem exprText_binary (op : ArithOp) (lhs rhs : StepExpr) :
    (exprText (.binary op lhs rhs)).toList =
      '(' :: ((baseText op lhs).toList ++ ' ' :: (op.symbol.toList ++ ' ' :: (exprText rhs).toList) ++
        [')']) := by
  show ("(" ++ baseText op lhs ++ " " ++ op.symbol ++ " " ++ exprText rhs ++ ")").toList = _
  simp only [String.toList_append, List.append_assoc, List.cons_append]
  rfl

/-- A base is an operand, and without floats it is one by itself before a power. -/
theorem isOperand_base (op : ArithOp) {lhs : StepExpr} {l : Expr} (h : IsWrittenExpr lhs l) :
    IsOperand (baseText op lhs).toList l ∧
      (lhs.floats = [] → op = .pow → Written (baseText op lhs).toList (SpellsPrimary · l)) := by
  rw [baseText]
  split
  · have hinner := (h.operand.unary.mono fun _ hspells ↦ hspells.spells levels).paren
    rw [String.toList_append, String.toList_append]
    exact ⟨.inl hinner, fun _ _ ↦ hinner⟩
  · next hfree =>
    refine ⟨h.operand, fun hfloats hpow ↦ (h.exact hfloats).2.2 ?_⟩
    rwa [decide_eq_true hpow, Bool.true_and, Bool.not_eq_true] at hfree

/-- An operation between written operands. Before a power, a base with a minus gives the power to what
stands after its minus; only a float is written so. -/
theorem exists_binary {op : ArithOp} {lhs rhs : StepExpr} {l r : Expr} (hl : IsWrittenExpr lhs l)
    (hr : IsWrittenExpr rhs r) : ∃ t, IsWrittenExpr (.binary op lhs rhs) t := by
  obtain ⟨hbase, hpower⟩ := isOperand_base op hl
  -- a base that is no operand by itself is a minus and an operand
  by_cases hprimary : op = .pow → Written (baseText op lhs).toList (SpellsPrimary · l)
  · have hleft : Written (baseText op lhs).toList fun toks ↦
        SpellsUnary toks l ∧ (op = .pow → SpellsPrimary toks l) := by
      by_cases hop : op = .pow
      · exact (hprimary hop).mono fun _ hspells ↦ ⟨hspells.unary, fun _ ↦ hspells⟩
      · exact hbase.unary.mono fun _ hspells ↦ ⟨hspells, fun h ↦ absurd h hop⟩
    refine ⟨.binary (.arith op) l r, .of_primary ⟨hl.callFree, hr.callFree⟩ ?_ fun hfloats ↦ ?_⟩
    · rw [exprText_binary]
      exact Written.arith op hleft hr.operand.unary
    · obtain ⟨hlfloats, hrfloats⟩ := List.append_eq_nil_iff.mp hfloats
      obtain ⟨hlexact, rfl, -⟩ := hl.exact hlfloats
      obtain ⟨hrexact, rfl, -⟩ := hr.exact hrfloats
      exact ⟨⟨hlexact, hrexact⟩, rfl⟩
  · obtain ⟨hop, hnot⟩ := Classical.not_imp.mp hprimary
    subst hop
    rcases hbase with hbase | ⟨rest, operand, htext, rfl, hrest⟩
    · exact absurd hbase hnot
    refine ⟨.unary .neg (.binary (.arith .pow) operand r), .of_primary ⟨hl.callFree, hr.callFree⟩ ?_
      fun hfloats ↦ absurd (hpower (List.append_eq_nil_iff.mp hfloats).1 rfl) hnot⟩
    rw [exprText_binary, htext]
    exact ((Written.power hrest hr.operand.unary).neg.mono fun _ hspells ↦ hspells.spells levels).paren

/-- **An expression** is written as something call-free. -/
theorem legible_expr {e : StepExpr} (h : e.AvoidsLeast) : ∃ t, IsWrittenExpr e t := by
  induction e with
  | step => exact ⟨.var "x", .of_primary trivial .step fun _ ↦ ⟨trivial, rfl⟩⟩
  | const value =>
    rcases value with n | x
    · refine ⟨Word.tree n, isCallFree_word n, isOperand_whole h, fun _ ↦ ⟨h, rfl, fun hneg ↦ ?_⟩⟩
      exact (stepExpr_written (e := .const (.int n)) h).mono fun _ hspells ↦ hspells.2 hneg
    · obtain ⟨t, hfree, hoperand⟩ := isOperand_float (x := x)
      exact ⟨t, hfree, hoperand, fun hfloats ↦ absurd hfloats (List.cons_ne_nil x [])⟩
  | neg operand ih =>
    obtain ⟨t, ht⟩ := ih h
    have hwritten := ((ht.operand.unary.neg).mono fun _ h ↦ h.spells levels).paren
    refine ⟨.unary .neg t, .of_primary ht.callFree ?_ fun hfloats ↦ ?_⟩
    · rw [exprText, String.toList_append, String.toList_append]
      exact hwritten
    · obtain ⟨hexact, rfl, -⟩ := ht.exact hfloats
      exact ⟨hexact, rfl⟩
  | binary op lhs rhs ihl ihr =>
    obtain ⟨l, hl⟩ := ihl h.1
    obtain ⟨r, hr⟩ := ihr h.2
    exact exists_binary hl hr

/-! ### Conditions -/

theorem conditionText_compare (op : CmpOp) (lhs rhs : StepExpr) :
    (conditionText (.compare op lhs rhs)).toList =
      (exprText lhs).toList ++ ' ' :: (op.inScript.symbol.toList ++ ' ' :: (exprText rhs).toList) := by
  rw [conditionText]
  simp only [String.toList_append, List.append_assoc]
  cases op <;> rfl

theorem conditionText_any (c : Condition) (cs : List Condition) :
    (conditionText (.any (c :: cs))).toList = '(' :: ((conditionText c).toList ++
      (restText (" " ++ BinaryOp.or.symbol ++ " ") cs).toList ++ [')']) := by
  rw [conditionText]
  simp only [String.toList_append, List.append_assoc]
  rfl

theorem conditionText_all (c : Condition) (cs : List Condition) :
    (conditionText (.all (c :: cs))).toList = '(' :: ((conditionText c).toList ++
      (restText (" " ++ BinaryOp.and.symbol ++ " ") cs).toList ++ [')']) := by
  rw [conditionText]
  simp only [String.toList_append, List.append_assoc]
  rfl

theorem conditionText_not (operand : Condition) : (conditionText (.not operand)).toList =
    '!' :: '(' :: ((conditionText operand).toList ++ [')']) := by
  rw [conditionText]
  simp only [String.toList_append]
  rfl

theorem restText_cons (op : BinaryOp) (c : Condition) (cs : List Condition) :
    (restText (" " ++ op.symbol ++ " ") (c :: cs)).toList =
      ' ' :: (op.symbol.toList ++ ' ' :: (conditionText c).toList) ++
        (restText (" " ++ op.symbol ++ " ") cs).toList := by
  rw [restText]
  simp only [String.toList_append, List.append_assoc, List.cons_append]
  rfl

/-- What a condition is written as. -/
structure IsWrittenCondition (c : Condition) (t : Expr) : Prop where
  callFree : t.IsCallFree
  written : Written (conditionText c).toList (Spells comparisonLevels · t)
  /-- Without floats it is the condition's own tree. -/
  exact : c.floats = [] → c.IsExact ∧ t = c.tree

theorem IsWrittenCondition.of_exact {c : Condition} (hexact : c.IsExact) (hfree : c.tree.IsCallFree) :
    IsWrittenCondition c c.tree :=
  ⟨hfree, condition_written c hexact, fun _ ↦ ⟨hexact, rfl⟩⟩

theorem legible_compare (op : CmpOp) {lhs rhs : StepExpr} (hlhs : lhs.AvoidsLeast)
    (hrhs : rhs.AvoidsLeast) : ∃ t, IsWrittenCondition (.compare op lhs rhs) t := by
  obtain ⟨l, hl⟩ := legible_expr hlhs
  obtain ⟨r, hr⟩ := legible_expr hrhs
  refine ⟨.binary op.inScript l r, ⟨hl.callFree, hr.callFree⟩, ?_, fun hfloats ↦ ?_⟩
  · rw [conditionText_compare]
    cases op with
    | eq =>
      exact equality_written (hl.operand.unary.mono fun _ h ↦ h.spells _)
        (hr.operand.unary.mono fun _ h ↦ h.spells _)
    | order op => exact order_written op hl.operand.unary hr.operand.unary
  · obtain ⟨hlfloats, hrfloats⟩ := List.append_eq_nil_iff.mp hfloats
    obtain ⟨hlexact, rfl, -⟩ := hl.exact hlfloats
    obtain ⟨hrexact, rfl, -⟩ := hr.exact hrfloats
    exact ⟨⟨hlexact, hrexact⟩, rfl⟩

/-- Further members, after anything that is written before them. -/
def LegibleRest (op : BinaryOp) (ops : List (List BinaryOp)) (cs : List Condition) : Prop :=
  ∀ (a : List Char) (first : Expr), first.IsCallFree → Written a (Spells ops · first) →
    ∃ t : Expr, t.IsCallFree ∧
      Written (a ++ (restText (" " ++ op.symbol ++ " ") cs).toList) (Spells ops · t) ∧
      (Condition.listFloats cs = [] → Condition.EachExact cs ∧ t = Condition.chain op first cs)

/-- Members between parentheses. -/
theorem legible_members {op : BinaryOp} {ops : List (List BinaryOp)} {whole c : Condition}
    {cs : List Condition} (htext : (conditionText whole).toList = '(' :: ((conditionText c).toList ++
      (restText (" " ++ op.symbol ++ " ") cs).toList ++ [')']))
    (hops : comparisonLevels <:+ ops) (hlevels : ops <:+ levels)
    (hfloats : whole.floats = c.floats ++ Condition.listFloats cs)
    (hexact : c.IsExact ∧ Condition.EachExact cs → whole.IsExact)
    (htree : whole.tree = Condition.chain op c.tree cs)
    (hc : ∃ t, IsWrittenCondition c t) (hcs : LegibleRest op ops cs) :
    ∃ t, IsWrittenCondition whole t := by
  obtain ⟨first, hfirst⟩ := hc
  have hmember := hfirst.written.mono fun _ h ↦ h.loosen hops
  obtain ⟨t, hfree, hwritten, hmembers⟩ := hcs _ first hfirst.callFree hmember
  refine ⟨t, hfree, ?_, fun hnone ↦ ?_⟩
  · rw [htext]
    have hinner := hwritten.mono fun _ h ↦ h.loosen hlevels
    exact hinner.paren.mono fun _ h ↦ h.unary.spells comparisonLevels
  · rw [hfloats, List.append_eq_nil_iff] at hnone
    obtain ⟨hcexact, rfl⟩ := hfirst.exact hnone.1
    obtain ⟨hcsexact, rfl⟩ := hmembers hnone.2
    exact ⟨hexact ⟨hcexact, hcsexact⟩, htree.symm⟩

mutual

/-- **A condition** is written as something call-free. -/
theorem legible_condition : (c : Condition) → c.AvoidsLeast → ∃ t, IsWrittenCondition c t
  | .const _, _ => ⟨_, .of_exact trivial trivial⟩
  | .congruent offset modulus, h =>
    ⟨_, .of_exact h ⟨⟨isCallFree_shift offset, isCallFree_word modulus⟩, trivial⟩⟩
  | .equals bound, h => ⟨_, .of_exact h ⟨trivial, isCallFree_word bound⟩⟩
  | .lessThan bound, h => ⟨_, .of_exact h ⟨trivial, isCallFree_word bound⟩⟩
  | .atMost bound, h => ⟨_, .of_exact h ⟨trivial, isCallFree_word bound⟩⟩
  | .greaterThan bound, h => ⟨_, .of_exact h ⟨trivial, isCallFree_word bound⟩⟩
  | .atLeast bound, h => ⟨_, .of_exact h ⟨trivial, isCallFree_word bound⟩⟩
  | .compare op _ _, h => legible_compare op h.1 h.2
  | .any [], _ => ⟨_, .of_exact trivial trivial⟩
  | .any (c :: cs), h =>
    legible_members (conditionText_any c cs) comparisonLevels_suffix (List.suffix_refl levels) rfl id
      rfl (legible_condition c h.1)
      (legible_rest (List.mem_singleton_self .or) (List.drop_suffix 1 levels.tail) cs h.2)
  | .all [], _ => ⟨_, .of_exact trivial trivial⟩
  | .all (c :: cs), h =>
    legible_members (conditionText_all c cs) (List.drop_suffix 1 levels.tail)
      (List.drop_suffix 1 levels) rfl id rfl (legible_condition c h.1)
      (legible_rest (List.mem_singleton_self .and) (List.suffix_refl _) cs h.2)
  | .not operand, h => by
    obtain ⟨t, ht⟩ := legible_condition operand h
    refine ⟨.unary .not t, ht.callFree, ?_, fun hfloats ↦ ?_⟩
    · rw [conditionText_not]
      exact (ht.written.mono fun _ h ↦ h.loosen comparisonLevels_suffix).not.mono
        fun _ h ↦ h.spells comparisonLevels
    · obtain ⟨hexact, rfl⟩ := ht.exact hfloats
      exact ⟨hexact, rfl⟩

/-- Further members, one after the other. -/
theorem legible_rest {op : BinaryOp} {level : List BinaryOp} {ops : List (List BinaryOp)}
    (hop : op ∈ level) (hops : comparisonLevels <:+ ops) :
    (cs : List Condition) → Condition.EachAvoidsLeast cs → LegibleRest op (level :: ops) cs
  | [], _, a, first, hfree, hfirst => by
    rw [restText]
    exact ⟨first, hfree, (List.append_nil a).symm ▸ hfirst, fun _ ↦ ⟨trivial, rfl⟩⟩
  | c :: cs, h, a, first, hfree, hfirst => by
    obtain ⟨t, ht⟩ := legible_condition c h.1
    -- what comes before the later members is joined to this one, as chains lean to the left
    have hmember := ht.written.mono fun _ h ↦ h.loosen hops
    obtain ⟨u, hufree, hwritten, hexact⟩ := legible_rest hop hops cs h.2 _ (.binary op first t)
      ⟨hfree, ht.callFree⟩ (Written.binary hop hfirst hmember)
    refine ⟨u, hufree, ?_, fun hfloats ↦ ?_⟩
    · rwa [restText_cons, ← List.append_assoc]
    · obtain ⟨hcfloats, hcsfloats⟩ := List.append_eq_nil_iff.mp hfloats
      obtain ⟨hcexact, rfl⟩ := ht.exact hcfloats
      obtain ⟨hcsexact, rfl⟩ := hexact hcsfloats
      exact ⟨⟨hcexact, hcsexact⟩, rfl⟩

end

end Script

end StepSequencer
