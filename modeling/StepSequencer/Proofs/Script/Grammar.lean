import StepSequencer.Proofs.Script.Views

/-!
# The grammar of expressions

`Spells ops toks e` says that the tokens spell the expression with operators of the given levels, the
loosest first. The relations below it do so for what stands between those operators: operands with
the operators before them, operands with what is applied to them, operands alone, and arguments.

The parser finds whatever is spelled (`Spells.parsed`), as long as nothing follows that the
expression could go on with. The proof is by recursion over the derivation. A level of operators and
a chain of suffixes grow to the left, while the parser reads from left to right; for these two the
statement is about what the parser still does after the tokens of the expression
(`BinaryReads`, `SuffixedReads`).
-/

namespace StepSequencer.Script

mutual

/-- The tokens are an expression with operators of the levels. -/
inductive Spells : List (List BinaryOp) → List Tok → Expr → Prop where
  | unary {toks : List Tok} {e : Expr} (h : SpellsUnary toks e) : Spells [] toks e
  | tighter {level : List BinaryOp} {ops : List (List BinaryOp)} {toks : List Tok} {e : Expr}
    (h : Spells ops toks e) : Spells (level :: ops) toks e
  | binary {level : List BinaryOp} {ops : List (List BinaryOp)} {ls rs : List Tok} {tok : Tok}
    {op : BinaryOp} {lhs rhs : Expr} (hop : levelOp? level tok = some op)
    (hl : Spells (level :: ops) ls lhs) (hr : Spells ops rs rhs) :
    Spells (level :: ops) (ls ++ tok :: rs) (.binary op lhs rhs)

/-- The tokens are an operand with the operators before it, or a power. -/
inductive SpellsUnary : List Tok → Expr → Prop where
  | leading {tok : Tok} {op : UnaryOp} {toks : List Tok} {e : Expr}
    (hop : leadingOp? tok = some op) (h : SpellsUnary toks e) :
    SpellsUnary (tok :: toks) (.unary op e)
  | suffixed {toks : List Tok} {e : Expr} (h : SpellsSuffixed toks e) : SpellsUnary toks e
  | power {bs es : List Tok} {base exponent : Expr} (hb : SpellsSuffixed bs base)
    (he : SpellsUnary es exponent) :
    SpellsUnary (bs ++ .sign .pow :: es) (.binary (.arith .pow) base exponent)

/-- The tokens are an operand and what is applied to it. -/
inductive SpellsSuffixed : List Tok → Expr → Prop where
  | primary {toks : List Tok} {e : Expr} (h : SpellsPrimary toks e) : SpellsSuffixed toks e
  | call {toks as : List Tok} {e : Expr} {name : String} {args : List Expr}
    (h : SpellsSuffixed toks e) (hargs : SpellsArguments as args) :
    SpellsSuffixed (toks ++ .dot :: .ident name :: .openParen :: as) (.method e name args)
  | method {toks : List Tok} {e : Expr} {name : String} (h : SpellsSuffixed toks e) :
    SpellsSuffixed (toks ++ [.dot, .ident name]) (.method e name [])
  | index {toks ks : List Tok} {e key : Expr} (h : SpellsSuffixed toks e)
    (hkey : Spells levels ks key) :
    SpellsSuffixed (toks ++ .openBracket :: (ks ++ [.closeBracket])) (.index e key)

/-- The tokens are an operand. -/
inductive SpellsPrimary : List Tok → Expr → Prop where
  | literal {tok : Tok} {e : Expr} (h : literal? tok = some e) : SpellsPrimary [tok] e
  | paren {toks : List Tok} {e : Expr} (h : Spells levels toks e) :
    SpellsPrimary (.openParen :: (toks ++ [.closeParen])) e
  | var {name : String} (hname : name ∉ keywords) (hnot : name ≠ "not") :
    SpellsPrimary [.ident name] (.var name)
  | call {name : String} {as : List Tok} {args : List Expr} (hname : name ∉ keywords)
    (hnot : name ≠ "not") (hargs : SpellsArguments as args) :
    SpellsPrimary (.ident name :: .openParen :: as) (.call name args)

/-- The tokens are arguments and their closing parenthesis. -/
inductive SpellsArguments : List Tok → List Expr → Prop where
  | none : SpellsArguments [.closeParen] []
  | some {toks : List Tok} {args : List Expr} (h : SpellsSome toks args) :
    SpellsArguments toks args

/-- The tokens are arguments, of which there is one at least, and their closing parenthesis. -/
inductive SpellsSome : List Tok → List Expr → Prop where
  | last {toks : List Tok} {arg : Expr} (h : Spells levels toks arg) :
    SpellsSome (toks ++ [.closeParen]) [arg]
  | more {toks as : List Tok} {arg : Expr} {args : List Expr} (h : Spells levels toks arg)
    (hargs : SpellsSome as args) : SpellsSome (toks ++ .comma :: as) (arg :: args)

end

/-- What binds tighter than every operator between operands is spelled at each level. -/
theorem SpellsUnary.spells {toks : List Tok} {e : Expr} (h : SpellsUnary toks e)
    (ops : List (List BinaryOp)) : Spells ops toks e := by
  induction ops with
  | nil => exact .unary h
  | cons level ops ih => exact .tighter ih

theorem SpellsPrimary.unary {toks : List Tok} {e : Expr} (h : SpellsPrimary toks e) :
    SpellsUnary toks e := .suffixed (.primary h)

/-- An expression of tighter levels is one of looser levels too. -/
theorem Spells.loosen {ops all : List (List BinaryOp)} {toks : List Tok} {e : Expr}
    (h : Spells ops toks e) (hsuffix : ops <:+ all) : Spells all toks e := by
  obtain ⟨outer, rfl⟩ := hsuffix
  induction outer with
  | nil => exact h
  | cons level outer ih => exact .tighter ih

/-! ### Signs and levels -/

/-- The sign that writes an operator. -/
def BinaryOp.sign : BinaryOp → Sign
  | .or => .or
  | .and => .and
  | .eq => .eq
  | .ne => .ne
  | .order .lt => .lt
  | .order .le => .le
  | .order .gt => .gt
  | .order .ge => .ge
  | .arith .add => .plus
  | .arith .sub => .minus
  | .arith .mul => .times
  | .arith .div => .over
  | .arith .rem => .percent
  | .arith .pow => .pow

/-- The sign of an operator is read as the operator. -/
theorem BinaryOp.ofSign?_sign (op : BinaryOp) : ofSign? op.sign = some op := by
  rcases op with - | - | - | - | (- | - | - | -) | (- | - | - | - | - | -) <;> rfl

/-- The operators of a level are found by their signs. -/
theorem levelOp?_eq_some_iff {level : List BinaryOp} {tok : Tok} {op : BinaryOp} :
    levelOp? level tok = some op ↔ ∃ s, tok = .sign s ∧ BinaryOp.ofSign? s = some op ∧ op ∈ level := by
  constructor
  · intro h
    rcases tok
    case sign s =>
      obtain ⟨hop, hmem⟩ := Option.filter_eq_some_iff.mp h
      exact ⟨s, rfl, hop, List.contains_iff_mem.mp hmem⟩
    all_goals cases h
  · rintro ⟨s, rfl, hop, hmem⟩
    exact Option.filter_eq_some_iff.mpr ⟨hop, List.contains_iff_mem.mpr hmem⟩

theorem levelOp?_sign {level : List BinaryOp} {op : BinaryOp} (h : op ∈ level) :
    levelOp? level (.sign op.sign) = some op :=
  levelOp?_eq_some_iff.mpr ⟨op.sign, rfl, op.ofSign?_sign, h⟩

/-- Every operator but the power stands on a level. -/
theorem BinaryOp.exists_level {op : BinaryOp} (h : op ≠ .arith .pow) :
    ∃ level ops, level :: ops <:+ levels ∧ op ∈ level := by
  have hlevel : ∃ level ∈ levels, op ∈ level := by
    rcases op with - | - | - | - | (- | - | - | -) | (- | - | - | - | - | -)
    case arith.pow => exact absurd rfl h
    all_goals decide
  obtain ⟨level, hmem, hop⟩ := hlevel
  obtain ⟨looser, ops, heq⟩ := List.append_of_mem hmem
  exact ⟨level, ops, ⟨looser, heq.symm⟩, hop⟩

/-! ### First tokens -/

/-- The words with which no expression begins. -/
def statementWords : List String :=
  ["if", "elsif", "else", "end", "do", "define", "live_loop", "return"]

/-- Whether an expression may begin with the token. -/
def beginsExpr : Tok → Bool
  | .int _ | .float _ | .str _ | .symbol _ | .openParen => true
  | .ident name => !statementWords.contains name
  | .sign s => s == .minus || s == .bang
  | _ => false

/-- The tokens begin as an expression does. -/
def StartsExpr (toks : List Tok) : Prop := ∃ t ts, toks = t :: ts ∧ beginsExpr t = true

/-- The tokens begin as an expression does, and with no operator. -/
def StartsOperand (toks : List Tok) : Prop :=
  ∃ t ts, toks = t :: ts ∧ leadingOp? t = none ∧ beginsExpr t = true

theorem StartsOperand.append {toks : List Tok} (h : StartsOperand toks) (more : List Tok) :
    StartsOperand (toks ++ more) := by
  obtain ⟨t, ts, rfl, h⟩ := h
  exact ⟨t, ts ++ more, rfl, h⟩

theorem StartsExpr.append {toks : List Tok} (h : StartsExpr toks) (more : List Tok) :
    StartsExpr (toks ++ more) := by
  obtain ⟨t, ts, rfl, h⟩ := h
  exact ⟨t, ts ++ more, rfl, h⟩

theorem StartsOperand.startsExpr {toks : List Tok} (h : StartsOperand toks) : StartsExpr toks := by
  obtain ⟨t, ts, rfl, -, h⟩ := h
  exact ⟨t, ts, rfl, h⟩

/-- A literal is an operand by itself. -/
theorem startsOperand_literal {tok : Tok} {e : Expr} (h : literal? tok = some e) :
    StartsOperand [tok] := by
  refine ⟨tok, [], rfl, ?_⟩
  rw [literal?.eq_def] at h
  split at h
  case h_8 => cases h
  all_goals exact ⟨rfl, rfl⟩

/-- A name that is no reserved word, and not the word `not`, begins an operand. -/
theorem startsOperand_ident {name : String} {toks : List Tok} (hname : name ∉ keywords)
    (hnot : name ≠ "not") : StartsOperand (.ident name :: toks) := by
  refine ⟨.ident name, toks, rfl, ?_, ?_⟩
  · rw [leadingOp?.eq_def]
    split
    case h_3 heq =>
      cases heq
      exact absurd rfl hnot
    case h_4 => rfl
    all_goals next heq => cases heq
  · have hword : name ∉ statementWords := fun h ↦
      hname ((by decide : ∀ w ∈ statementWords, w ∈ keywords) name h)
    rw [beginsExpr, Bool.not_eq_true', Bool.eq_false_iff]
    rwa [ne_eq, List.contains_iff_mem]

/-- An expression may begin with an operator that comes before its operand. -/
theorem beginsExpr_of_leadingOp? {tok : Tok} {op : UnaryOp} (h : leadingOp? tok = some op) :
    beginsExpr tok = true := by
  rw [leadingOp?.eq_def] at h
  split at h
  case h_4 => cases h
  all_goals rfl

mutual

/-- An operand, with or without what is applied to it, begins with no operator. -/
theorem SpellsSuffixed.startsOperand {toks : List Tok} {e : Expr} :
    SpellsSuffixed toks e → StartsOperand toks
  | .primary h => h.startsOperand
  | .call h _ | .method h | .index h _ => h.startsOperand.append _

theorem SpellsPrimary.startsOperand {toks : List Tok} {e : Expr} :
    SpellsPrimary toks e → StartsOperand toks
  | .literal h => startsOperand_literal h
  | .paren _ => ⟨.openParen, _, rfl, rfl, rfl⟩
  | .var hname hnot | .call hname hnot _ => startsOperand_ident hname hnot

end

/-- What may come after a name with which an expression begins. -/
def goesOnName : Tok → Bool
  | .dot | .openParen | .openBracket => true
  | _ => false

/-- If the tokens begin with a name, what comes after it goes on with it. -/
def GoesOn (toks : List Tok) : Prop :=
  ∀ name ts, toks = .ident name :: ts → ts.head?.all goesOnName = true

/-- What is applied to an operand goes on with a name, if the operand is a mere name. -/
theorem GoesOn.append {as bs : List Tok} (has : GoesOn as) (hstarts : StartsOperand as)
    (hbs : bs.head?.all goesOnName = true) : GoesOn (as ++ bs) := by
  rintro name ts heq
  obtain ⟨t, us, rfl, -⟩ := hstarts
  obtain ⟨rfl, rfl⟩ := List.cons.inj heq
  rcases us with - | ⟨u, us⟩
  · exact hbs
  · exact has name (u :: us) rfl

/-- If an operand begins with a name, it is the name alone or a call of it. -/
theorem SpellsPrimary.goesOn {toks : List Tok} {e : Expr} (h : SpellsPrimary toks e) :
    GoesOn toks := by
  rintro name ts heq
  cases h with
  | literal h =>
    obtain ⟨-, rfl⟩ := List.cons.inj heq
    rfl
  | paren h => cases heq
  | var hname hnot =>
    obtain ⟨-, rfl⟩ := List.cons.inj heq
    rfl
  | call hname hnot hargs =>
    obtain ⟨-, rfl⟩ := List.cons.inj heq
    rfl

/-- After a name with which an operand begins comes nothing, or something that is applied to it. -/
theorem SpellsSuffixed.goesOn {toks : List Tok} {e : Expr} : SpellsSuffixed toks e → GoesOn toks
  | .primary h => h.goesOn
  | .call h _ | .method h | .index h _ => h.goesOn.append h.startsOperand rfl

/-- An operand with operators before it begins as an expression does. -/
theorem SpellsUnary.startsExpr {toks : List Tok} {e : Expr} (h : SpellsUnary toks e) :
    StartsExpr toks := by
  cases h with
  | @leading tok op ts e hop h => exact ⟨tok, ts, rfl, beginsExpr_of_leadingOp? hop⟩
  | suffixed h => exact h.startsOperand.startsExpr
  | power hb _ => exact (hb.startsOperand.append _).startsExpr

/-- Every expression begins with one of a few tokens, none of them a word of a statement. -/
theorem Spells.startsExpr {ops : List (List BinaryOp)} {toks : List Tok} {e : Expr} :
    Spells ops toks e → StartsExpr toks
  | .unary h => h.startsExpr
  | .tighter h => h.startsExpr
  | .binary _ hl _ => hl.startsExpr.append _

theorem SpellsSome.startsExpr {toks : List Tok} {args : List Expr} (h : SpellsSome toks args) :
    StartsExpr toks := by
  cases h with
  | last h | more h _ => exact h.startsExpr.append _

/-! ### Lines -/

/-- The tokens stand on one line. -/
def Unbroken (toks : List Tok) : Prop := ∀ t ∈ toks, t.isNewline = false

@[simp] theorem unbroken_nil : Unbroken [] := fun t ht ↦ (by cases ht)

@[simp] theorem unbroken_cons {tok : Tok} {toks : List Tok} :
    Unbroken (tok :: toks) ↔ tok.isNewline = false ∧ Unbroken toks := List.forall_mem_cons

@[simp] theorem unbroken_append {ls rs : List Tok} :
    Unbroken (ls ++ rs) ↔ Unbroken ls ∧ Unbroken rs := List.forall_mem_append

/-- No expression begins with the end of a line. -/
theorem isNewline_of_beginsExpr {tok : Tok} (h : beginsExpr tok = true) : tok.isNewline = false := by
  cases tok
  case newline => cases h
  all_goals rfl

theorem isNewline_of_levelOp? {level : List BinaryOp} {tok : Tok} {op : BinaryOp}
    (h : levelOp? level tok = some op) : tok.isNewline = false := by
  cases tok
  case sign => rfl
  all_goals cases h

theorem isNewline_of_literal? {tok : Tok} {e : Expr} (h : literal? tok = some e) :
    tok.isNewline = false := by
  cases tok
  case newline => cases h
  all_goals rfl

mutual

/-- An expression stands on one line, even between its parentheses and brackets. -/
theorem Spells.unbroken {ops : List (List BinaryOp)} {toks : List Tok} {e : Expr} :
    Spells ops toks e → Unbroken toks
  | .unary h => h.unbroken
  | .tighter h => h.unbroken
  | .binary hop hl hr =>
    unbroken_append.mpr ⟨hl.unbroken, unbroken_cons.mpr ⟨isNewline_of_levelOp? hop, hr.unbroken⟩⟩

theorem SpellsUnary.unbroken {toks : List Tok} {e : Expr} : SpellsUnary toks e → Unbroken toks
  | .leading hop h =>
    unbroken_cons.mpr ⟨isNewline_of_beginsExpr (beginsExpr_of_leadingOp? hop), h.unbroken⟩
  | .suffixed h => h.unbroken
  | .power hb he => unbroken_append.mpr ⟨hb.unbroken, unbroken_cons.mpr ⟨rfl, he.unbroken⟩⟩

theorem SpellsSuffixed.unbroken {toks : List Tok} {e : Expr} : SpellsSuffixed toks e → Unbroken toks
  | .primary h => h.unbroken
  | .call h hargs => unbroken_append.mpr ⟨h.unbroken, unbroken_cons.mpr ⟨rfl,
      unbroken_cons.mpr ⟨rfl, unbroken_cons.mpr ⟨rfl, hargs.unbroken⟩⟩⟩⟩
  | .method h => unbroken_append.mpr ⟨h.unbroken, unbroken_cons.mpr ⟨rfl,
      unbroken_cons.mpr ⟨rfl, unbroken_nil⟩⟩⟩
  | .index h hkey => unbroken_append.mpr ⟨h.unbroken, unbroken_cons.mpr ⟨rfl,
      unbroken_append.mpr ⟨hkey.unbroken, unbroken_cons.mpr ⟨rfl, unbroken_nil⟩⟩⟩⟩

theorem SpellsPrimary.unbroken {toks : List Tok} {e : Expr} : SpellsPrimary toks e → Unbroken toks
  | .literal h => unbroken_cons.mpr ⟨isNewline_of_literal? h, unbroken_nil⟩
  | .paren h => unbroken_cons.mpr ⟨rfl,
      unbroken_append.mpr ⟨h.unbroken, unbroken_cons.mpr ⟨rfl, unbroken_nil⟩⟩⟩
  | .var _ _ => unbroken_cons.mpr ⟨rfl, unbroken_nil⟩
  | .call _ _ hargs => unbroken_cons.mpr ⟨rfl, unbroken_cons.mpr ⟨rfl, hargs.unbroken⟩⟩

theorem SpellsArguments.unbroken {toks : List Tok} {args : List Expr} :
    SpellsArguments toks args → Unbroken toks
  | .none => unbroken_cons.mpr ⟨rfl, unbroken_nil⟩
  | .some h => h.unbroken

theorem SpellsSome.unbroken {toks : List Tok} {args : List Expr} :
    SpellsSome toks args → Unbroken toks
  | .last h => unbroken_append.mpr ⟨h.unbroken, unbroken_cons.mpr ⟨rfl, unbroken_nil⟩⟩
  | .more h hargs =>
    unbroken_append.mpr ⟨h.unbroken, unbroken_cons.mpr ⟨rfl, hargs.unbroken⟩⟩

end

/-! ### What may follow -/

/-- Whether an expression goes on with the token. -/
def continuesExpr : Tok → Bool
  | .sign s => (BinaryOp.ofSign? s).isSome
  | .dot | .openBracket | .openParen => true
  | _ => false

/-- What follows is nothing that an expression of the levels goes on with. -/
structure Stops (ops : List (List BinaryOp)) (rest : List Token) : Prop where
  operator : ∀ level ∈ ops, (next? rest).bind (levelOp? level) = none
  power : next? rest ≠ some (.sign .pow)
  dot : next? rest ≠ some .dot
  index : next? rest ≠ some .openBracket
  call : next? rest ≠ some .openParen

theorem Stops.tail {level : List BinaryOp} {ops : List (List BinaryOp)} {rest : List Token}
    (h : Stops (level :: ops) rest) : Stops ops rest :=
  { h with operator := fun l hl ↦ h.operator l (List.mem_cons_of_mem level hl) }

/-- An expression of any level stops before a token that continues none. -/
theorem stops_of_continuesExpr {ops : List (List BinaryOp)} {rest : List Token}
    (h : (next? rest).all (!continuesExpr ·) = true) : Stops ops rest := by
  rcases rest with - | ⟨⟨line, tok⟩, rest⟩
  · exact ⟨fun _ _ ↦ rfl, fun h ↦ (by cases h), fun h ↦ (by cases h), fun h ↦ (by cases h),
      fun h ↦ (by cases h)⟩
  · have htok : continuesExpr tok = false := (Bool.not_eq_true' _).mp h
    refine ⟨fun level _ ↦ ?_, ?_, ?_, ?_, ?_⟩
    · refine Option.eq_none_iff_forall_ne_some.mpr fun op hop ↦ ?_
      obtain ⟨s, rfl, hs, -⟩ := levelOp?_eq_some_iff.mp hop
      rw [continuesExpr, hs] at htok
      cases htok
    all_goals
      intro heq
      cases heq
      cases htok

/-- No operator stands on two levels. -/
theorem levels_pairwise : levels.Pairwise fun a b ↦ ∀ op ∈ a, op ∉ b := by decide

/-- The right operand of an operator stops before another one of the same level, and before a looser
one. -/
theorem stops_levelOp {level : List BinaryOp} {ops : List (List BinaryOp)} {t : Token}
    {rest : List Token} {op : BinaryOp} (hlevels : level :: ops <:+ levels)
    (hop : levelOp? level t.tok = some op) : Stops ops (t :: rest) := by
  obtain ⟨s, hs, hsign, hmem⟩ := levelOp?_eq_some_iff.mp hop
  have hpow : .arith .pow ∉ level := by
    have hall : ∀ l ∈ levels, BinaryOp.arith .pow ∉ l := by decide
    exact hall level (hlevels.subset (List.mem_cons_self ..))
  have hnext : next? (t :: rest) = some (.sign s) := congrArg some hs
  refine ⟨fun l hl ↦ ?_, ?_, ?_, ?_, ?_⟩
  · have hdisjoint := List.rel_of_pairwise_cons (levels_pairwise.sublist hlevels.sublist) hl
    rw [hnext]
    refine Option.eq_none_iff_forall_ne_some.mpr fun op' hop' ↦ ?_
    have hlevel : levelOp? l (.sign s) = some op' := hop'
    obtain ⟨s', heq, hsign', hmem'⟩ := levelOp?_eq_some_iff.mp hlevel
    obtain rfl := Tok.sign.inj heq
    obtain rfl := Option.some.inj (hsign.symm.trans hsign')
    exact hdisjoint op hmem hmem'
  · rw [hnext]
    rintro ⟨⟩
    obtain rfl := Option.some.inj hsign
    exact hpow hmem
  all_goals
    rw [hnext]
    intro h
    cases h

/-! ### What the parsers read -/

variable (lastLine : Nat)

/-- What is still to be done after a left operand of the first level. -/
def goOn (ops : List (List BinaryOp)) (e : Expr) (rest : List Token) :
    Attempt (Expr × List Token) :=
  match ops with
  | [] => .ok (e, rest)
  | level :: ops => view (binaryRest lastLine level ops e rest)

/-- The tokens are read as a left operand of the first level. -/
def BinaryReads (ops : List (List BinaryOp)) (toks : List Tok) (e : Expr) : Prop :=
  ∀ pre rest, pre.map (·.tok) = toks → Stops ops.tail rest →
    view (binaryExpr lastLine ops (pre ++ rest)) = goOn lastLine ops e rest

/-- The tokens are read as an operand with the operators before it. -/
def UnaryReads (toks : List Tok) (e : Expr) : Prop :=
  ∀ pre rest, pre.map (·.tok) = toks → Stops [] rest →
    view (unaryExpr lastLine (pre ++ rest)) = .ok (e, rest)

/-- The tokens are read as a receiver. -/
def SuffixedReads (toks : List Tok) (e : Expr) : Prop :=
  ∀ pre rest, pre.map (·.tok) = toks → next? rest ≠ some .openParen →
    view (suffixed lastLine (pre ++ rest)) = view (suffixes lastLine e rest)

/-- The tokens are read as an operand alone. -/
def PrimaryReads (toks : List Tok) (e : Expr) : Prop :=
  ∀ pre rest, pre.map (·.tok) = toks → next? rest ≠ some .openParen →
    view (primary lastLine (pre ++ rest)) = .ok (e, rest)

/-- The tokens are read as arguments and their closing parenthesis. -/
def ArgumentsRead (toks : List Tok) (args : List Expr) : Prop :=
  ∀ pre rest, pre.map (·.tok) = toks →
    view (arguments lastLine (pre ++ rest)) = .ok (args, rest)

/-- The tokens are read as one argument at least. -/
def SomeRead (toks : List Tok) (args : List Expr) : Prop :=
  ∀ pre rest, pre.map (·.tok) = toks →
    view (someArguments lastLine (pre ++ rest)) = .ok (args, rest)

variable {lastLine : Nat} {toks as : List Tok} {e : Expr} {args : List Expr} {name : String}

/-- Nothing is done after an operand that no operator follows. -/
theorem goOn_of_stops {ops : List (List BinaryOp)} {rest : List Token} (h : Stops ops rest) :
    goOn lastLine ops e rest = .ok (e, rest) := by
  rcases ops with - | ⟨level, ops⟩
  · rfl
  · exact view_binaryRest_stop (h.operator level (List.mem_cons_self ..))

/-- A left operand that nothing goes on with is the whole expression. -/
theorem BinaryReads.view_eq {ops : List (List BinaryOp)} (h : BinaryReads lastLine ops toks e)
    {pre rest : List Token} (hpre : pre.map (·.tok) = toks) (hstops : Stops ops rest) :
    view (binaryExpr lastLine ops (pre ++ rest)) = .ok (e, rest) := by
  have htail : Stops ops.tail rest := by
    rcases ops with - | ⟨level, ops⟩
    · exact hstops
    · exact hstops.tail
  rw [h pre rest hpre htail, goOn_of_stops hstops]

theorem next?_append {pre rest : List Token} {t : Tok} {ts : List Tok}
    (h : pre.map (·.tok) = t :: ts) : next? (pre ++ rest) = some t := by
  obtain ⟨p, ps, rfl, rfl, -⟩ := List.map_eq_cons_iff.mp h
  rfl

/-! ### Operators -/

/-- An expression of tighter operators is a left operand of a looser one. -/
theorem binaryReads_tighter {level : List BinaryOp} {ops : List (List BinaryOp)}
    (h : BinaryReads lastLine ops toks e) : BinaryReads lastLine (level :: ops) toks e := by
  intro pre rest hpre hstops
  rw [view_binaryExpr_cons, h.view_eq hpre hstops]
  rfl

/-- An operator takes what was read before it as its left operand, and stops before the next one of
its level. -/
theorem binaryReads_binary {level : List BinaryOp} {ops : List (List BinaryOp)} {ls rs : List Tok}
    {tok : Tok} {op : BinaryOp} {lhs rhs : Expr} (hlevels : level :: ops <:+ levels)
    (hop : levelOp? level tok = some op) (hl : BinaryReads lastLine (level :: ops) ls lhs)
    (hr : BinaryReads lastLine ops rs rhs) :
    BinaryReads lastLine (level :: ops) (ls ++ tok :: rs) (.binary op lhs rhs) := by
  intro pre rest hpre hstops
  obtain ⟨l, ps, rfl, hpl, hps⟩ := List.map_eq_append_iff.mp hpre
  obtain ⟨t, r, rfl, rfl, hpr⟩ := List.map_eq_cons_iff.mp hps
  rw [List.append_assoc, List.cons_append, hl l _ hpl (stops_levelOp hlevels hop)]
  show view (binaryRest lastLine level ops lhs (t :: (r ++ rest))) = _
  rw [view_binaryRest_cons hop, hr.view_eq hpr hstops]
  rfl

/-- An operator before an operand applies to all that is read behind it. -/
theorem unaryReads_leading {tok : Tok} {op : UnaryOp} (hop : leadingOp? tok = some op)
    (h : UnaryReads lastLine toks e) : UnaryReads lastLine (tok :: toks) (.unary op e) := by
  intro pre rest hpre hstops
  obtain ⟨t, ts, rfl, rfl, hts⟩ := List.map_eq_cons_iff.mp hpre
  rw [List.cons_append, view_unaryExpr_leading hop, h ts rest hts hstops]
  rfl

theorem leadingOp?_append {pre rest : List Token} (hpre : pre.map (·.tok) = toks)
    (h : StartsOperand toks) : (next? (pre ++ rest)).bind leadingOp? = none := by
  obtain ⟨t, ts, rfl, hleading, -⟩ := h
  rw [next?_append hpre]
  exact hleading

/-- An operand without an operator before it is read as it is, unless a power follows. -/
theorem unaryReads_suffixed (hstarts : StartsOperand toks) (h : SuffixedReads lastLine toks e) :
    UnaryReads lastLine toks e := by
  intro pre rest hpre hstops
  rw [view_unaryExpr_suffixed (leadingOp?_append hpre hstarts), h pre rest hpre hstops.call,
    view_suffixes_stop hstops.dot hstops.index]
  show powerView lastLine e rest = .ok (e, rest)
  rw [powerView.eq_def]
  split
  · exact absurd rfl hstops.power
  · rfl

/-- The exponent of a power may have an operator before it and be a power itself. -/
theorem unaryReads_power {bs es : List Tok} {base exponent : Expr} (hstarts : StartsOperand bs)
    (hb : SuffixedReads lastLine bs base) (he : UnaryReads lastLine es exponent) :
    UnaryReads lastLine (bs ++ .sign .pow :: es) (.binary (.arith .pow) base exponent) := by
  intro pre rest hpre hstops
  obtain ⟨b, ps, rfl, hpb, hps⟩ := List.map_eq_append_iff.mp hpre
  obtain ⟨⟨line, tok⟩, r, rfl, rfl, hpr⟩ := List.map_eq_cons_iff.mp hps
  rw [List.append_assoc, view_unaryExpr_suffixed (leadingOp?_append hpb hstarts), List.cons_append,
    hb b _ hpb (fun h ↦ (by cases h)),
    view_suffixes_stop (fun h ↦ (by cases h)) (fun h ↦ (by cases h))]
  show view (unaryExpr lastLine (r ++ rest)) >>= _ = _
  rw [he r rest hpr hstops]
  rfl

/-! ### Operands -/

theorem suffixedReads_primary (h : PrimaryReads lastLine toks e) :
    SuffixedReads lastLine toks e := by
  intro pre rest hpre hcall
  rw [view_suffixed, h pre rest hpre hcall]
  rfl

/-- A method that is called with parentheses. -/
theorem suffixedReads_call (h : SuffixedReads lastLine toks e)
    (hargs : ArgumentsRead lastLine as args) :
    SuffixedReads lastLine (toks ++ .dot :: .ident name :: .openParen :: as)
      (.method e name args) := by
  intro pre rest hpre hcall
  obtain ⟨r, ps, rfl, hpr, hps⟩ := List.map_eq_append_iff.mp hpre
  obtain ⟨⟨a, point⟩, qs, rfl, rfl, hqs⟩ := List.map_eq_cons_iff.mp hps
  obtain ⟨⟨b, word⟩, us, rfl, rfl, hus⟩ := List.map_eq_cons_iff.mp hqs
  obtain ⟨⟨c, paren⟩, l, rfl, rfl, hpl⟩ := List.map_eq_cons_iff.mp hus
  rw [List.append_assoc, h r _ hpr (fun h ↦ (by cases h))]
  show view (suffixes lastLine e (⟨a, .dot⟩ :: ⟨b, .ident name⟩ :: ⟨c, .openParen⟩ :: (l ++ rest))) = _
  rw [view_suffixes_call, hargs l rest hpl]
  rfl

/-- A method without parentheses has no arguments. -/
theorem suffixedReads_method (h : SuffixedReads lastLine toks e) :
    SuffixedReads lastLine (toks ++ [Tok.dot, .ident name]) (.method e name []) := by
  intro pre rest hpre hcall
  obtain ⟨r, ps, rfl, hpr, hps⟩ := List.map_eq_append_iff.mp hpre
  obtain ⟨⟨a, point⟩, qs, rfl, rfl, hqs⟩ := List.map_eq_cons_iff.mp hps
  obtain ⟨⟨b, word⟩, us, rfl, rfl, hus⟩ := List.map_eq_cons_iff.mp hqs
  obtain rfl := List.map_eq_nil_iff.mp hus
  rw [List.append_assoc, h r _ hpr (fun h ↦ (by cases h))]
  exact view_suffixes_method hcall

/-- An index reaches to its closing bracket, whatever the levels of its operators. -/
theorem suffixedReads_index {ks : List Tok} {key : Expr} (h : SuffixedReads lastLine toks e)
    (hkey : BinaryReads lastLine levels ks key) :
    SuffixedReads lastLine (toks ++ .openBracket :: (ks ++ [Tok.closeBracket])) (.index e key) := by
  intro pre rest hpre hcall
  obtain ⟨r, ps, rfl, hpr, hps⟩ := List.map_eq_append_iff.mp hpre
  obtain ⟨⟨a, opening⟩, qs, rfl, rfl, hqs⟩ := List.map_eq_cons_iff.mp hps
  obtain ⟨k, us, rfl, hpk, hus⟩ := List.map_eq_append_iff.mp hqs
  obtain ⟨⟨b, closing⟩, vs, rfl, rfl, hvs⟩ := List.map_eq_cons_iff.mp hus
  obtain rfl := List.map_eq_nil_iff.mp hvs
  have hview : view (binaryExpr lastLine levels (k ++ ⟨b, .closeBracket⟩ :: rest)) =
      .ok (key, ⟨b, .closeBracket⟩ :: rest) := hkey.view_eq hpk (stops_of_continuesExpr rfl)
  rw [List.append_assoc, h r _ hpr (fun h ↦ (by cases h)), List.cons_append, List.append_assoc]
  exact view_suffixes_index hview

theorem primaryReads_literal {tok : Tok} (h : literal? tok = some e) :
    PrimaryReads lastLine [tok] e := by
  intro pre rest hpre hcall
  obtain ⟨⟨a, t⟩, ps, rfl, rfl, hps⟩ := List.map_eq_cons_iff.mp hpre
  obtain rfl := List.map_eq_nil_iff.mp hps
  exact view_primary_literal h

/-- Between parentheses there may be operators of any level. -/
theorem primaryReads_paren (h : BinaryReads lastLine levels toks e) :
    PrimaryReads lastLine (.openParen :: (toks ++ [Tok.closeParen])) e := by
  intro pre rest hpre hcall
  obtain ⟨⟨a, opening⟩, ps, rfl, rfl, hps⟩ := List.map_eq_cons_iff.mp hpre
  obtain ⟨inner, qs, rfl, hinner, hqs⟩ := List.map_eq_append_iff.mp hps
  obtain ⟨⟨b, closing⟩, us, rfl, rfl, hus⟩ := List.map_eq_cons_iff.mp hqs
  obtain rfl := List.map_eq_nil_iff.mp hus
  have hview : view (binaryExpr lastLine levels (inner ++ ⟨b, .closeParen⟩ :: rest)) =
      .ok (e, ⟨b, .closeParen⟩ :: rest) := h.view_eq hinner (stops_of_continuesExpr rfl)
  rw [List.cons_append, List.append_assoc]
  exact view_primary_paren hview

/-- A name is a variable if no parenthesis follows. -/
theorem primaryReads_var (hname : name ∉ keywords) :
    PrimaryReads lastLine [.ident name] (.var name) := by
  intro pre rest hpre hcall
  obtain ⟨⟨a, t⟩, ps, rfl, rfl, hps⟩ := List.map_eq_cons_iff.mp hpre
  obtain rfl := List.map_eq_nil_iff.mp hps
  exact view_primary_var hname hcall

/-- A name with a parenthesis behind it is a call. -/
theorem primaryReads_call (hname : name ∉ keywords) (hargs : ArgumentsRead lastLine as args) :
    PrimaryReads lastLine (.ident name :: .openParen :: as) (.call name args) := by
  intro pre rest hpre hcall
  obtain ⟨⟨a, t⟩, ps, rfl, rfl, hps⟩ := List.map_eq_cons_iff.mp hpre
  obtain ⟨⟨b, paren⟩, l, rfl, rfl, hpl⟩ := List.map_eq_cons_iff.mp hps
  rw [List.cons_append, List.cons_append, view_primary_call hname, hargs l rest hpl]
  rfl

/-! ### Arguments -/

theorem argumentsRead_none : ArgumentsRead lastLine [.closeParen] [] := by
  intro pre rest hpre
  obtain ⟨⟨a, t⟩, ps, rfl, rfl, hps⟩ := List.map_eq_cons_iff.mp hpre
  obtain rfl := List.map_eq_nil_iff.mp hps
  exact view_arguments_close

/-- Arguments that do not begin with the closing parenthesis are one at least. -/
theorem argumentsRead_some (hstarts : StartsExpr toks) (h : SomeRead lastLine toks args) :
    ArgumentsRead lastLine toks args := by
  intro pre rest hpre
  obtain ⟨t, ts, rfl, ht⟩ := hstarts
  rw [view_arguments_some, h pre rest hpre]
  rw [next?_append hpre]
  rintro ⟨⟩
  cases ht

/-- The closing parenthesis ends the arguments. -/
theorem someRead_last (h : BinaryReads lastLine levels toks e) :
    SomeRead lastLine (toks ++ [Tok.closeParen]) [e] := by
  intro pre rest hpre
  obtain ⟨arg, ps, rfl, harg, hps⟩ := List.map_eq_append_iff.mp hpre
  obtain ⟨⟨a, t⟩, qs, rfl, rfl, hqs⟩ := List.map_eq_cons_iff.mp hps
  obtain rfl := List.map_eq_nil_iff.mp hqs
  have hview : view (binaryExpr lastLine levels (arg ++ ⟨a, .closeParen⟩ :: rest)) =
      .ok (e, ⟨a, .closeParen⟩ :: rest) := h.view_eq harg (stops_of_continuesExpr rfl)
  rw [List.append_assoc]
  exact view_someArguments_last hview

/-- After a comma there is one argument at least. -/
theorem someRead_more (h : BinaryReads lastLine levels toks e) (hargs : SomeRead lastLine as args) :
    SomeRead lastLine (toks ++ .comma :: as) (e :: args) := by
  intro pre rest hpre
  obtain ⟨arg, ps, rfl, harg, hps⟩ := List.map_eq_append_iff.mp hpre
  obtain ⟨⟨a, t⟩, l, rfl, rfl, hpl⟩ := List.map_eq_cons_iff.mp hps
  have hview : view (binaryExpr lastLine levels (arg ++ ⟨a, .comma⟩ :: (l ++ rest))) =
      .ok (e, ⟨a, .comma⟩ :: (l ++ rest)) := h.view_eq harg (stops_of_continuesExpr rfl)
  rw [List.append_assoc, List.cons_append, view_someArguments_comma hview, hargs l rest hpl]
  rfl

/-! ### Everything that is spelled -/

mutual

/-- An expression is read as a left operand of the loosest of its levels. -/
theorem Spells.reads {ops : List (List BinaryOp)} {toks : List Tok} {e : Expr}
    (hlevels : ops <:+ levels) : Spells ops toks e → BinaryReads lastLine ops toks e
  | .unary h => fun pre rest hpre hstops ↦ view_binaryExpr_nil.trans (h.reads pre rest hpre hstops)
  | .tighter h => binaryReads_tighter (h.reads ((List.suffix_cons _ _).trans hlevels))
  | .binary hop hl hr => binaryReads_binary hlevels hop (hl.reads hlevels)
      (hr.reads ((List.suffix_cons _ _).trans hlevels))

theorem SpellsUnary.reads {toks : List Tok} {e : Expr} :
    SpellsUnary toks e → UnaryReads lastLine toks e
  | .leading hop h => unaryReads_leading hop h.reads
  | .suffixed h => unaryReads_suffixed h.startsOperand h.reads
  | .power hb he => unaryReads_power hb.startsOperand hb.reads he.reads

theorem SpellsSuffixed.reads {toks : List Tok} {e : Expr} :
    SpellsSuffixed toks e → SuffixedReads lastLine toks e
  | .primary h => suffixedReads_primary h.reads
  | .call h hargs => suffixedReads_call h.reads hargs.reads
  | .method h => suffixedReads_method h.reads
  | .index h hkey => suffixedReads_index h.reads (hkey.reads (List.suffix_refl _))

theorem SpellsPrimary.reads {toks : List Tok} {e : Expr} :
    SpellsPrimary toks e → PrimaryReads lastLine toks e
  | .literal h => primaryReads_literal h
  | .paren h => primaryReads_paren (h.reads (List.suffix_refl _))
  | .var hname _ => primaryReads_var hname
  | .call hname _ hargs => primaryReads_call hname hargs.reads

theorem SpellsArguments.reads {toks : List Tok} {args : List Expr} :
    SpellsArguments toks args → ArgumentsRead lastLine toks args
  | .none => argumentsRead_none
  | .some h => argumentsRead_some h.startsExpr h.reads

theorem SpellsSome.reads {toks : List Tok} {args : List Expr} :
    SpellsSome toks args → SomeRead lastLine toks args
  | .last h => someRead_last (h.reads (List.suffix_refl _))
  | .more h hargs => someRead_more (h.reads (List.suffix_refl _)) hargs.reads

end

/-- **Whatever is spelled is read**, up to where nothing follows that it could go on with. -/
theorem Spells.parsed (h : Spells levels toks e) {pre rest : List Token}
    (hpre : pre.map (·.tok) = toks) (hrest : (next? rest).all (!continuesExpr ·) = true) :
    view (expression lastLine (pre ++ rest)) = .ok (e, rest) :=
  (h.reads (List.suffix_refl _)).view_eq hpre (stops_of_continuesExpr hrest)

end StepSequencer.Script
