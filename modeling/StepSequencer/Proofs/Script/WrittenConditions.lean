import StepSequencer.Proofs.Number.Words
import StepSequencer.Proofs.Script.Grammar
import StepSequencer.Proofs.Script.Lexing
import StepSequencer.Script.Writer

/-!
# How conditions are written

The text of an expression or of a condition spells a syntax tree, which is the one that the parser
finds in it. The trees (`StepExpr.tree`, `Condition.tree`) are those of the rule's own operations; only a
negative number becomes the negation of its magnitude.

`Written text p` says of a text that it becomes tokens with the property `p`, wherever something
follows with which neither a name nor a number goes on. The lemmas of the section on pieces put such
texts together; `stepExpr_written` and `condition_written` go along the writer's recursion.

Only numbers that have a whole negation are considered (`StepExpr.IsExact`, `Condition.IsExact`).
-/

namespace StepSequencer

/-! ### Numbers with a negation -/

/-- No constant is a float or the least word. -/
def StepExpr.IsExact : StepExpr → Prop
  | .step => True
  | .const (.int n) => n ≠ Int64.minValue
  | .const (.float _) => False
  | .neg operand => operand.IsExact
  | .binary _ lhs rhs => lhs.IsExact ∧ rhs.IsExact

namespace Condition

mutual

/-- No number is a float or the least word. -/
def IsExact : Condition → Prop
  | .const _ => True
  | .congruent offset modulus => offset ≠ Int64.minValue ∧ modulus ≠ Int64.minValue
  | .equals bound | .lessThan bound | .atMost bound | .greaterThan bound | .atLeast bound =>
    bound ≠ Int64.minValue
  | .compare _ lhs rhs => lhs.IsExact ∧ rhs.IsExact
  | .any members | .all members => EachExact members
  | .not operand => operand.IsExact

/-- Each member is exact. -/
def EachExact : List Condition → Prop
  | [] => True
  | c :: cs => c.IsExact ∧ EachExact cs

end

end Condition

/-! ### Syntax trees -/

open Script (Expr BinaryOp)

/-- The literal of a whole number; a negative one is the negation of its magnitude. -/
def Word.tree (n : Int64) : Expr := if n.toInt < 0 then .unary .neg (.int (-n)) else .int n

/-- The step plus an offset. -/
def Word.shiftTree (offset : Int64) : Expr :=
  if offset = 0 then .var "x"
  else if 0 < offset then .binary (.arith .add) (.var "x") (.int offset)
  else .binary (.arith .sub) (.var "x") (.int (-offset))

/-- The syntax tree of the expression. -/
def StepExpr.tree : StepExpr → Expr
  | .step => .var "x"
  | .const (.int n) => Word.tree n
  | .const (.float x) => .float x
  | .neg operand => .unary .neg operand.tree
  | .binary op lhs rhs => .binary (.arith op) lhs.tree rhs.tree

/-- The operator of scripts that compares in this way. -/
def CmpOp.inScript : CmpOp → BinaryOp
  | .eq => .eq
  | .order op => .order op

namespace Condition

mutual

/-- The syntax tree of the condition. -/
def tree : Condition → Expr
  | .const value => .bool value
  | .congruent offset modulus =>
    .binary .eq (.binary (.arith .rem) (Word.shiftTree offset) (Word.tree modulus)) (.int 0)
  | .equals bound => .binary .eq (.var "x") (Word.tree bound)
  | .lessThan bound => .binary (.order .lt) (.var "x") (Word.tree bound)
  | .atMost bound => .binary (.order .le) (.var "x") (Word.tree bound)
  | .greaterThan bound => .binary (.order .gt) (.var "x") (Word.tree bound)
  | .atLeast bound => .binary (.order .ge) (.var "x") (Word.tree bound)
  | .compare op lhs rhs => .binary op.inScript lhs.tree rhs.tree
  | .any [] => .bool false
  | .any (c :: cs) => chain .or c.tree cs
  | .all [] => .bool true
  | .all (c :: cs) => chain .and c.tree cs
  | .not operand => .unary .not operand.tree

/-- Further members, joined to what comes before them. -/
def chain (op : BinaryOp) (first : Expr) : List Condition → Expr
  | [] => first
  | c :: cs => chain op (.binary op first c.tree) cs

end

end Condition

namespace Script

/-! ### Pieces -/

/-- Neither a name nor a number goes on with the text. -/
def ends (rest : List Char) : Bool := endsName rest && endsNumber rest

theorem endsName_of_ends {rest : List Char} (h : ends rest = true) : endsName rest = true :=
  (Bool.and_eq_true_iff.mp h).1

theorem endsNumber_of_ends {rest : List Char} (h : ends rest = true) : endsNumber rest = true :=
  (Bool.and_eq_true_iff.mp h).2

/-- The text becomes tokens with the property. -/
def Written (text : List Char) (p : List Tok → Prop) : Prop :=
  ∃ toks, p toks ∧ ∀ rest, ends rest = true → Lexes text toks rest

theorem BinaryOp.sign_text (op : BinaryOp) : op.sign.text = op.symbol := by
  rcases op with - | - | - | - | (- | - | - | -) | (- | - | - | - | - | -) <;> rfl

/-- A sign between blanks. -/
theorem lexes_sign (s : Sign) (rest : List Char) :
    Lexes (' ' :: (s.text.toList ++ [' '])) [.sign s] rest := by
  cases s <;> exact .of_lexemes (n := 3) rfl

namespace Written

variable {a b : List Char} {p q : List Tok → Prop} {lhs rhs e : Expr}

theorem mono (h : Written a p) (himp : ∀ toks, p toks → q toks) : Written a q := by
  obtain ⟨toks, hp, hlexes⟩ := h
  exact ⟨toks, himp toks hp, hlexes⟩

/-- An operator of a level between its operands. -/
theorem binary {level : List BinaryOp} {ops : List (List BinaryOp)} {op : BinaryOp} (hop : op ∈ level)
    (hl : Written a (Spells (level :: ops) · lhs)) (hr : Written b (Spells ops · rhs)) :
    Written (a ++ ' ' :: (op.symbol.toList ++ ' ' :: b))
      (Spells (level :: ops) · (.binary op lhs rhs)) := by
  obtain ⟨ls, hspells, hlexes⟩ := hl
  obtain ⟨rs, hspells', hlexes'⟩ := hr
  refine ⟨ls ++ .sign op.sign :: rs, .binary (levelOp?_sign hop) hspells hspells', ?_⟩
  intro rest hrest
  have hsign := (lexes_sign op.sign (b ++ rest)).append (hlexes' rest hrest)
  rw [BinaryOp.sign_text, List.cons_append, List.append_assoc] at hsign
  exact (hlexes _ rfl).append hsign

/-- A power. -/
theorem power (hl : Written a (SpellsPrimary · lhs)) (hr : Written b (SpellsUnary · rhs)) :
    Written (a ++ ' ' :: ('*' :: '*' :: ' ' :: b))
      (SpellsUnary · (.binary (.arith .pow) lhs rhs)) := by
  obtain ⟨ls, hspells, hlexes⟩ := hl
  obtain ⟨rs, hspells', hlexes'⟩ := hr
  refine ⟨ls ++ .sign .pow :: rs, .power (.primary hspells) hspells', ?_⟩
  intro rest hrest
  exact (hlexes _ rfl).append ((lexes_sign .pow (b ++ rest)).append (hlexes' rest hrest))

theorem neg (h : Written a (SpellsUnary · e)) :
    Written ('-' :: a) (SpellsUnary · (.unary .neg e)) := by
  obtain ⟨toks, hspells, hlexes⟩ := h
  refine ⟨.sign .minus :: toks, .leading rfl hspells, ?_⟩
  intro rest hrest
  have hminus : Lexes ['-'] [.sign .minus] (a ++ rest) := .of_lexemes (n := 1) rfl
  exact hminus.append (hlexes rest hrest)

theorem paren (h : Written a (Spells levels · e)) :
    Written ('(' :: (a ++ [')'])) (SpellsPrimary · e) := by
  obtain ⟨toks, hspells, hlexes⟩ := h
  refine ⟨.openParen :: (toks ++ [Tok.closeParen]), .paren hspells, ?_⟩
  intro rest hrest
  have hclose : Lexes [')'] [.closeParen] rest := .of_lexemes (n := 1) rfl
  have hopen : Lexes ['('] [.openParen] (a ++ [')'] ++ rest) := .of_lexemes (n := 1) rfl
  exact hopen.append ((hlexes (')' :: rest) rfl).append hclose)

/-- A negation, whose operand stands between parentheses. -/
theorem not (h : Written a (Spells levels · e)) :
    Written ('!' :: '(' :: (a ++ [')'])) (SpellsUnary · (.unary .not e)) := by
  obtain ⟨toks, hspells, hlexes⟩ := h
  refine ⟨.sign .bang :: .openParen :: (toks ++ [Tok.closeParen]),
    .leading rfl (.suffixed (.primary (.paren hspells))), ?_⟩
  intro rest hrest
  have hclose : Lexes [')'] [.closeParen] rest := .of_lexemes (n := 1) rfl
  have hopen : Lexes ['!', '('] [.sign .bang, .openParen] (a ++ [')'] ++ rest) :=
    .of_lexemes (n := 2) rfl
  exact hopen.append ((hlexes (')' :: rest) rfl).append hclose)

/-- A name that is one of the words `true`, `false` and `nil`, or none of the reserved ones. -/
theorem name {s : String} (hs : isName s = true) (hspells : SpellsPrimary [.ident s] e) :
    Written s.toList (SpellsPrimary · e) :=
  ⟨[.ident s], hspells, fun _ hrest ↦ lexes_name hs (endsName_of_ends hrest)⟩

theorem step : Written ['x'] (SpellsPrimary · (.var "x")) :=
  name (s := "x") rfl (.var (by decide) (by decide))

end Written

/-! ### Numbers -/

/-- A whole number that is not negative. -/
theorem toDigits_written {n : Nat} {w : Int64} (h : w.toInt = n) :
    Written (Nat.toDigits 10 n) (SpellsPrimary · (.int w)) :=
  ⟨[.int w], .literal rfl, fun _ hrest ↦ lexes_number (isNumber_toDigits h) (endsNumber_of_ends hrest)⟩

/-- A whole number spells its literal, or the negation of its magnitude. -/
theorem whole_written {n : Int64} (h : n ≠ Int64.minValue) :
    Written (toString n.toInt).toList fun toks ↦ SpellsUnary toks (Word.tree n) ∧
      (0 ≤ n.toInt → SpellsPrimary toks (Word.tree n)) := by
  rw [Word.tree]
  split
  · next hneg =>
    have hmagnitude : (-n).toInt = n.toInt.natAbs := by
      rw [Word.toInt_neg h]
      omega
    rw [toString_of_neg hneg]
    exact ((toDigits_written hmagnitude).mono fun _ ↦ SpellsPrimary.unary).neg.mono
      fun toks hspells ↦ ⟨hspells, fun hnonneg ↦ absurd hneg (by omega)⟩
  · next hnonneg =>
    obtain ⟨m, hm⟩ := Int.eq_ofNat_of_zero_le (Int.not_lt.mp hnonneg)
    rw [hm, toString_ofNat]
    exact (toDigits_written hm).mono fun toks hspells ↦ ⟨hspells.unary, fun _ ↦ hspells⟩

/-! ### Expressions -/

/-- An arithmetic operation between parentheses. The base of a power must be an operand by itself. -/
theorem Written.arith {a b : List Char} {lhs rhs : Expr} (op : ArithOp)
    (hl : Written a fun toks ↦ SpellsUnary toks lhs ∧ (op = .pow → SpellsPrimary toks lhs))
    (hr : Written b (SpellsUnary · rhs)) :
    Written ('(' :: (a ++ ' ' :: (op.symbol.toList ++ ' ' :: b) ++ [')']))
      (SpellsPrimary · (.binary (.arith op) lhs rhs)) := by
  refine Written.paren ?_
  by_cases hpow : op = .pow
  · subst hpow
    exact (power (hl.mono fun _ h ↦ h.2 rfl) hr).mono fun _ h ↦ h.spells levels
  · have hne : BinaryOp.arith op ≠ .arith .pow := fun h ↦ hpow (BinaryOp.arith.inj h)
    obtain ⟨level, ops, hsuffix, hop⟩ := BinaryOp.exists_level hne
    have hl' := hl.mono fun _ h ↦ h.1.spells (level :: ops)
    exact (binary hop hl' (hr.mono fun _ h ↦ h.spells ops)).mono fun _ h ↦ h.loosen hsuffix

/-- The step plus an offset spells its tree. -/
theorem shifted_written {offset : Int64} (h : offset ≠ Int64.minValue) :
    Written (shiftedText offset).toList (SpellsPrimary · (Word.shiftTree offset)) := by
  have hstep {op : ArithOp} : Written ['x'] fun toks ↦
      SpellsUnary toks (.var "x") ∧ (op = .pow → SpellsPrimary toks (.var "x")) :=
    Written.step.mono fun _ h ↦ ⟨h.unary, fun _ ↦ h⟩
  rw [shiftedText, Word.shiftTree]
  split
  · exact .step
  split
  · next hpos =>
    obtain ⟨m, hm⟩ := Int.eq_ofNat_of_zero_le (Int.le_of_lt (Word.pos_iff.mp hpos))
    rw [String.toList_append, String.toList_append, hm, toString_ofNat]
    exact Written.arith .add hstep ((toDigits_written hm).mono fun _ ↦ SpellsPrimary.unary)
  · next hpos =>
    have hmagnitude : (-offset).toInt = offset.toInt.natAbs := by
      rw [Word.pos_iff] at hpos
      rw [Word.toInt_neg h]
      omega
    rw [String.toList_append, String.toList_append, Nat.toString_eq_repr, Nat.toList_repr]
    exact Written.arith .sub hstep ((toDigits_written hmagnitude).mono fun _ ↦ SpellsPrimary.unary)

/-- **An expression** spells its tree, and all but a negative constant as an operand by itself. -/
theorem stepExpr_written {e : StepExpr} (h : e.IsExact) :
    Written (exprText e).toList fun toks ↦ SpellsUnary toks e.tree ∧
      (isNegativeConst e = false → SpellsPrimary toks e.tree) := by
  induction e with
  | step => exact Written.step.mono fun _ h ↦ ⟨h.unary, fun _ ↦ h⟩
  | const value =>
    rcases value with n | x
    · refine (whole_written h).mono fun _ ⟨hunary, hprimary⟩ ↦ ⟨hunary, fun hneg ↦ hprimary ?_⟩
      exact Int.not_lt.mp (of_decide_eq_false hneg)
    · cases h
  | neg operand ih =>
    have hoperand := (ih h).mono fun _ h ↦ h.1
    rw [exprText, String.toList_append, String.toList_append]
    exact (hoperand.neg.mono fun _ h ↦ h.spells levels).paren.mono fun _ h ↦ ⟨h.unary, fun _ ↦ h⟩
  | binary op lhs rhs ihl ihr =>
    have hbase : Written (if (op = .pow && isNegativeConst lhs) = true
        then "(" ++ exprText lhs ++ ")" else exprText lhs).toList fun toks ↦
        SpellsUnary toks lhs.tree ∧ (op = .pow → SpellsPrimary toks lhs.tree) := by
      split
      · -- a negative base is put in parentheses, or its sign would be taken for an operator
        have hinner := (ihl h.1).mono fun _ h ↦ h.1.spells levels
        rw [String.toList_append, String.toList_append]
        exact hinner.paren.mono fun _ h ↦ ⟨h.unary, fun _ ↦ h⟩
      · next hplain =>
        refine (ihl h.1).mono fun _ ⟨hunary, hprimary⟩ ↦ ⟨hunary, fun hpow ↦ hprimary ?_⟩
        rwa [decide_eq_true hpow, Bool.true_and, Bool.not_eq_true] at hplain
    have hwhole := Written.arith op hbase ((ihr h.2).mono fun _ h ↦ h.1)
    rw [exprText]
    simp only [String.toList_append, List.append_assoc, List.cons_append] at hwhole ⊢
    exact hwhole.mono fun _ h ↦ ⟨h.unary, fun _ ↦ h⟩

/-! ### Conditions -/

/-- The levels of the operators that compare, and of all tighter ones. -/
def comparisonLevels : List (List BinaryOp) := levels.drop 2

/-- The levels of the operators that order, and of all tighter ones. -/
def orderLevels : List (List BinaryOp) := levels.drop 3

theorem comparisonLevels_suffix : comparisonLevels <:+ levels := List.drop_suffix 2 levels

theorem equality_written {a b : List Char} {lhs rhs : Expr}
    (hl : Written a (Spells orderLevels · lhs)) (hr : Written b (Spells orderLevels · rhs)) :
    Written (a ++ ' ' :: ('=' :: '=' :: ' ' :: b))
      (Spells comparisonLevels · (.binary .eq lhs rhs)) :=
  .binary (show BinaryOp.eq ∈ [BinaryOp.eq, .ne] by decide) (hl.mono fun _ ↦ .tighter) hr

theorem order_written {a b : List Char} {lhs rhs : Expr} (op : OrderOp)
    (hl : Written a (SpellsUnary · lhs)) (hr : Written b (SpellsUnary · rhs)) :
    Written (a ++ ' ' :: (op.symbol.toList ++ ' ' :: b))
      (Spells comparisonLevels · (.binary (.order op) lhs rhs)) := by
  have hop : BinaryOp.order op ∈ [BinaryOp.order .lt, .order .le, .order .gt, .order .ge] := by
    cases op <;> decide
  exact (Written.binary hop (hl.mono fun _ h ↦ h.spells _) (hr.mono fun _ h ↦ h.spells _)).mono
    fun _ ↦ .tighter

/-- The step against a bound. -/
theorem bound_written (op : OrderOp) {n : Int64} (h : n ≠ Int64.minValue) :
    Written ('x' :: ' ' :: (op.symbol.toList ++ ' ' :: (toString n.toInt).toList))
      (Spells comparisonLevels · (.binary (.order op) (.var "x") (Word.tree n))) :=
  order_written op (Written.step.mono fun _ ↦ SpellsPrimary.unary)
    ((whole_written h).mono fun _ h ↦ h.1)

theorem bool_written (value : Bool) :
    Written (if value then "true" else "false").toList
      (Spells comparisonLevels · (.bool value)) := by
  rcases value with - | -
  · exact (Written.name (s := "false") rfl (.literal rfl)).mono fun _ h ↦ h.unary.spells _
  · exact (Written.name (s := "true") rfl (.literal rfl)).mono fun _ h ↦ h.unary.spells _

theorem congruent_written {offset modulus : Int64} (hoffset : offset ≠ Int64.minValue)
    (hmodulus : modulus ≠ Int64.minValue) :
    Written (conditionText (.congruent offset modulus)).toList
      (Spells comparisonLevels · (Condition.congruent offset modulus).tree) := by
  have hzero : Written ['0'] (SpellsPrimary · (.int 0)) := toDigits_written (n := 0) rfl
  have hop : BinaryOp.arith .rem ∈ [BinaryOp.arith .mul, .arith .div, .arith .rem] := by decide
  have hrest := Written.binary hop
    ((shifted_written hoffset).mono fun _ h ↦ h.unary.spells _)
    ((whole_written hmodulus).mono fun _ h ↦ h.1.spells [])
  have hwhole := equality_written (hrest.mono fun _ h ↦ h.loosen (by decide))
    (hzero.mono fun _ h ↦ h.unary.spells _)
  rw [conditionText, Condition.tree]
  simp only [String.toList_append, List.append_assoc, List.cons_append] at hwhole ⊢
  exact hwhole

theorem compare_written (op : CmpOp) {lhs rhs : StepExpr} (hl : lhs.IsExact) (hr : rhs.IsExact) :
    Written (conditionText (.compare op lhs rhs)).toList
      (Spells comparisonLevels · (Condition.compare op lhs rhs).tree) := by
  have hlhs := (stepExpr_written hl).mono fun _ h ↦ h.1
  have hrhs := (stepExpr_written hr).mono fun _ h ↦ h.1
  rw [conditionText, Condition.tree]
  simp only [String.toList_append, List.append_assoc]
  cases op with
  | eq =>
    exact equality_written (hlhs.mono fun _ h ↦ h.spells _) (hrhs.mono fun _ h ↦ h.spells _)
  | order op => exact order_written op hlhs hrhs

mutual

/-- **A condition** spells its tree. -/
theorem condition_written : (c : Condition) → c.IsExact →
    Written (conditionText c).toList (Spells comparisonLevels · c.tree)
  | .const value, _ => by
    rw [conditionText, Condition.tree]
    exact bool_written value
  | .congruent _ _, h => congruent_written h.1 h.2
  | .equals _, h => by
    rw [conditionText, Condition.tree, String.toList_append]
    exact equality_written (Written.step.mono fun _ h ↦ h.unary.spells _)
      ((whole_written h).mono fun _ h ↦ h.1.spells _)
  | .lessThan _, h => by
    rw [conditionText, Condition.tree, String.toList_append]
    exact bound_written .lt h
  | .atMost _, h => by
    rw [conditionText, Condition.tree, String.toList_append]
    exact bound_written .le h
  | .greaterThan _, h => by
    rw [conditionText, Condition.tree, String.toList_append]
    exact bound_written .gt h
  | .atLeast _, h => by
    rw [conditionText, Condition.tree, String.toList_append]
    exact bound_written .ge h
  | .compare op _ _, h => compare_written op h.1 h.2
  | .any [], _ => by
    rw [conditionText, Condition.tree]
    exact bool_written false
  | .any (c :: cs), h => by
    -- the parentheses take the chain back to an operand
    have hfirst := (condition_written c h.1).mono fun _ h ↦ h.loosen comparisonLevels_suffix
    have hmembers := rest_written (List.mem_singleton_self BinaryOp.or)
      (List.drop_suffix 1 levels.tail) cs h.2 hfirst
    rw [conditionText, Condition.tree]
    simp only [String.toList_append, List.append_assoc]
    have hparen := hmembers.paren.mono fun _ h ↦ h.unary.spells comparisonLevels
    rw [List.append_assoc] at hparen
    exact hparen
  | .all [], _ => by
    rw [conditionText, Condition.tree]
    exact bool_written true
  | .all (c :: cs), h => by
    have hfirst : Written _ (Spells ([.and] :: comparisonLevels) · c.tree) :=
      (condition_written c h.1).mono fun _ ↦ .tighter
    have hmembers := (rest_written (List.mem_singleton_self BinaryOp.and)
      (List.suffix_refl comparisonLevels) cs h.2 hfirst).mono
      fun _ h ↦ h.loosen (List.drop_suffix 1 levels)
    rw [conditionText, Condition.tree]
    simp only [String.toList_append, List.append_assoc]
    have hparen := hmembers.paren.mono fun _ h ↦ h.unary.spells comparisonLevels
    rw [List.append_assoc] at hparen
    exact hparen
  | .not operand, h => by
    have hoperand := (condition_written operand h).mono fun _ h ↦ h.loosen comparisonLevels_suffix
    rw [conditionText, Condition.tree]
    simp only [String.toList_append, List.append_assoc]
    exact hoperand.not.mono fun _ h ↦ h.spells comparisonLevels

/-- Further members spell the chain that they are joined to. -/
theorem rest_written {op : BinaryOp} {level : List BinaryOp} {ops : List (List BinaryOp)}
    (hop : op ∈ level) (hops : comparisonLevels <:+ ops) :
    (cs : List Condition) → Condition.EachExact cs → ∀ {a : List Char} {first : Expr},
      Written a (Spells (level :: ops) · first) →
      Written (a ++ (restText (" " ++ op.symbol ++ " ") cs).toList)
        (Spells (level :: ops) · (Condition.chain op first cs))
  | [], _, a, _, hfirst => by
    rw [restText, Condition.chain]
    exact (List.append_nil a).symm ▸ hfirst
  | c :: cs, h, a, first, hfirst => by
    have hmember := (condition_written c h.1).mono fun _ h ↦ h.loosen hops
    have hmembers := rest_written hop hops cs h.2 (Written.binary hop hfirst hmember)
    rw [restText, Condition.chain]
    simp only [String.toList_append, List.append_assoc, List.cons_append] at hmembers ⊢
    exact hmembers

end

end Script

end StepSequencer
