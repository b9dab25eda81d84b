import StepSequencer.Script.Parser

/-!
# What the parsers do, without their bounds

A parser's result carries a bound on the tokens that are left. `view` forgets it, so that results
for different token lists can be compared; the equations below give the view of each parser from
the views of the parsers it calls.
-/

namespace StepSequencer.Script

/-- The value of a result and the tokens left. -/
def Parsed.pair {n : Nat} {α : Type} (p : Parsed n α) : α × List Token := (p.value, p.rest)

/-- An attempt without the bound on the tokens left. -/
def view {n : Nat} {α : Type} (x : Attempt (Parsed n α)) : Attempt (α × List Token) :=
  x.map Parsed.pair

section Expressions

variable {lastLine : Nat} {ops : List (List BinaryOp)} {level : List BinaryOp} {ts : List Token}

@[simp] theorem view_ok {n : Nat} {α : Type} (p : Parsed n α) : view (.ok p) = .ok p.pair := rfl

/-- A view is a success just as the attempt is, with some bound. -/
theorem view_eq_ok_iff {n : Nat} {α : Type} {x : Attempt (Parsed n α)} {value : α}
    {rest : List Token} :
    view x = .ok (value, rest) ↔ ∃ h : rest.length < n, x = .ok ⟨value, rest, h⟩ := by
  constructor
  · intro h
    rcases x with e | ⟨a, ts, hshorter⟩
    · cases h
    · obtain ⟨rfl, rfl⟩ := Prod.mk.inj (Except.ok.inj h)
      exact ⟨hshorter, rfl⟩
  · rintro ⟨hshorter, rfl⟩
    rfl

/-- Below all levels there are operands. -/
theorem view_binaryExpr_nil : view (binaryExpr lastLine [] ts) = view (unaryExpr lastLine ts) := by
  rw [binaryExpr]

/-- A level begins with its left operand. -/
theorem view_binaryExpr_cons :
    view (binaryExpr lastLine (level :: ops) ts) =
      view (binaryExpr lastLine ops ts) >>= fun (lhs, rest) ↦
        view (binaryRest lastLine level ops lhs rest) := by
  rw [binaryExpr]
  rcases binaryExpr lastLine ops ts with e | p
  · rfl
  · show view (binaryRest lastLine level ops p.value p.rest >>= _) =
      view (binaryRest lastLine level ops p.value p.rest)
    rcases binaryRest lastLine level ops p.value p.rest with e | q <;> rfl

/-- No operator of the level comes next. -/
theorem view_binaryRest_stop {lhs : Expr} (h : (next? ts).bind (levelOp? level) = none) :
    view (binaryRest lastLine level ops lhs ts) = .ok (lhs, ts) := by
  rw [binaryRest.eq_def]
  rcases ts with - | ⟨t, ts⟩
  · rfl
  · have ht : levelOp? level t.tok = none := h
    dsimp only
    rw [ht]
    rfl

/-- Operators of a level group to the left. -/
theorem view_binaryRest_cons {t : Token} {lhs : Expr} {op : BinaryOp}
    (h : levelOp? level t.tok = some op) :
    view (binaryRest lastLine level ops lhs (t :: ts)) =
      view (binaryExpr lastLine ops ts) >>= fun (rhs, rest) ↦
        view (binaryRest lastLine level ops (.binary op lhs rhs) rest) := by
  rw [binaryRest.eq_def]
  dsimp only
  rw [h]
  rcases binaryExpr lastLine ops ts with e | p
  · rfl
  · show view (binaryRest lastLine level ops (.binary op lhs p.value) p.rest >>= _) =
      view (binaryRest lastLine level ops (.binary op lhs p.value) p.rest)
    rcases binaryRest lastLine level ops (.binary op lhs p.value) p.rest with e | q <;> rfl

/-- An operator before an operand. -/
theorem view_unaryExpr_leading {t : Token} {op : UnaryOp} (h : leadingOp? t.tok = some op) :
    view (unaryExpr lastLine (t :: ts)) =
      view (unaryExpr lastLine ts) >>= fun (e, rest) ↦ .ok (.unary op e, rest) := by
  rw [unaryExpr.eq_def]
  have hnext : (next? (t :: ts)).bind leadingOp? = some op := h
  rw [hnext]
  dsimp only
  rcases unaryExpr lastLine ts with e | p <;> rfl

/-- What may follow an operand: a power. -/
def powerView (lastLine : Nat) (base : Expr) : List Token → Attempt (Expr × List Token)
  | ⟨_, .sign .pow⟩ :: rest =>
    view (unaryExpr lastLine rest) >>= fun (exponent, rest) ↦
      .ok (.binary (.arith .pow) base exponent, rest)
  | rest => .ok (base, rest)

/-- An operand without an operator before it may be the base of a power. -/
theorem view_unaryExpr_suffixed (h : (next? ts).bind leadingOp? = none) :
    view (unaryExpr lastLine ts) =
      view (suffixed lastLine ts) >>= fun (base, rest) ↦ powerView lastLine base rest := by
  rw [unaryExpr.eq_def, h]
  dsimp only
  rcases suffixed lastLine ts with e | ⟨base, rest, hshorter⟩
  · rfl
  · dsimp only [bind, Except.bind, view_ok]
    split
    · next line rest' =>
      show view (unaryExpr lastLine rest' >>= _) = view (unaryExpr lastLine rest') >>= _
      rcases unaryExpr lastLine rest' with e | p <;> rfl
    · next hpow =>
      rw [powerView]
      · rfl
      · exact fun line rest' heq ↦ hpow line rest' heq

theorem view_suffixed :
    view (suffixed lastLine ts) =
      view (primary lastLine ts) >>= fun (e, rest) ↦ view (suffixes lastLine e rest) := by
  rw [suffixed.eq_def]
  rcases primary lastLine ts with e | p
  · rfl
  · show view (suffixes lastLine p.value p.rest >>= _) = view (suffixes lastLine p.value p.rest)
    rcases suffixes lastLine p.value p.rest with e | q <;> rfl

variable {receiver : Expr} {name : String} {a b c : Nat}

theorem view_suffixes_call :
    view (suffixes lastLine receiver (⟨a, .dot⟩ :: ⟨b, .ident name⟩ :: ⟨c, .openParen⟩ :: ts)) =
      view (arguments lastLine ts) >>= fun (args, rest) ↦
        view (suffixes lastLine (.method receiver name args) rest) := by
  rw [suffixes.eq_def]
  dsimp only
  rcases arguments lastLine ts with e | p
  · rfl
  · show view (suffixes lastLine (.method receiver name p.value) p.rest >>= _) =
      view (suffixes lastLine (.method receiver name p.value) p.rest)
    rcases suffixes lastLine (.method receiver name p.value) p.rest with e | q <;> rfl

/-- A method without an opening parenthesis has no arguments. -/
theorem view_suffixes_method (h : next? ts ≠ some .openParen) :
    view (suffixes lastLine receiver (⟨a, .dot⟩ :: ⟨b, .ident name⟩ :: ts)) =
      view (suffixes lastLine (.method receiver name []) ts) := by
  have hview : view (suffixes lastLine (.method receiver name []) ts >>= fun e ↦
        .ok (e.weaken (n := (⟨a, .dot⟩ :: ⟨b, .ident name⟩ :: ts).length + 1)
          (by simp only [List.length_cons]; omega))) =
      view (suffixes lastLine (.method receiver name []) ts) := by
    rcases suffixes lastLine (.method receiver name []) ts with e | p <;> rfl
  rw [suffixes.eq_def]
  rcases ts with - | ⟨⟨c, tok⟩, ts⟩
  · exact hview
  · cases tok
    case openParen => exact absurd rfl h
    all_goals exact hview

/-- What follows an index is applied to it. -/
theorem view_suffixes_index {key : Expr} {rest : List Token}
    (h : view (binaryExpr lastLine levels ts) = .ok (key, ⟨b, .closeBracket⟩ :: rest)) :
    view (suffixes lastLine receiver (⟨a, .openBracket⟩ :: ts)) =
      view (suffixes lastLine (.index receiver key) rest) := by
  obtain ⟨hshorter, hkey⟩ := view_eq_ok_iff.mp h
  rw [suffixes.eq_def]
  dsimp only
  rw [hkey]
  show view (suffixes lastLine (.index receiver key) rest >>= _) =
    view (suffixes lastLine (.index receiver key) rest)
  rcases suffixes lastLine (.index receiver key) rest with e | p <;> rfl

/-- Nothing more is applied. -/
theorem view_suffixes_stop (hdot : next? ts ≠ some .dot) (hindex : next? ts ≠ some .openBracket) :
    view (suffixes lastLine receiver ts) = .ok (receiver, ts) := by
  rw [suffixes.eq_def]
  rcases ts with - | ⟨⟨a, tok⟩, ts⟩
  · rfl
  · cases tok
    case dot => exact absurd rfl hdot
    case openBracket => exact absurd rfl hindex
    all_goals rfl

theorem view_arguments_close :
    view (arguments lastLine (⟨a, .closeParen⟩ :: ts)) = .ok ([], ts) := by
  rw [arguments.eq_def]
  rfl

/-- Unless they close at once, there is an argument. -/
theorem view_arguments_some (h : next? ts ≠ some .closeParen) :
    view (arguments lastLine ts) = view (someArguments lastLine ts) := by
  rw [arguments.eq_def]
  rcases ts with - | ⟨⟨a, tok⟩, ts⟩
  · rfl
  · cases tok
    case closeParen => exact absurd rfl h
    all_goals rfl

/-- The closing parenthesis is part of the arguments. -/
theorem view_someArguments_last {arg : Expr} {rest : List Token}
    (h : view (binaryExpr lastLine levels ts) = .ok (arg, ⟨a, .closeParen⟩ :: rest)) :
    view (someArguments lastLine ts) = .ok ([arg], rest) := by
  obtain ⟨hshorter, harg⟩ := view_eq_ok_iff.mp h
  rw [someArguments.eq_def, harg]
  rfl

theorem view_someArguments_comma {arg : Expr} {rest : List Token}
    (h : view (binaryExpr lastLine levels ts) = .ok (arg, ⟨a, .comma⟩ :: rest)) :
    view (someArguments lastLine ts) =
      view (someArguments lastLine rest) >>= fun (args, rest) ↦ .ok (arg :: args, rest) := by
  obtain ⟨hshorter, harg⟩ := view_eq_ok_iff.mp h
  rw [someArguments.eq_def, harg]
  show view (someArguments lastLine rest >>= _) = view (someArguments lastLine rest) >>= _
  rcases someArguments lastLine rest with e | p <;> rfl

theorem view_primary_literal {tok : Tok} {e : Expr} (h : literal? tok = some e) :
    view (primary lastLine (⟨a, tok⟩ :: ts)) = .ok (e, ts) := by
  rw [primary.eq_def]
  dsimp only
  rw [h]
  rfl

theorem view_primary_paren {inner : Expr} {rest : List Token}
    (h : view (binaryExpr lastLine levels ts) = .ok (inner, ⟨b, .closeParen⟩ :: rest)) :
    view (primary lastLine (⟨a, .openParen⟩ :: ts)) = .ok (inner, rest) := by
  obtain ⟨hshorter, hinner⟩ := view_eq_ok_iff.mp h
  rw [primary.eq_def]
  dsimp only [literal?]
  rw [hinner]
  rfl

/-- A word that is no keyword is no literal. -/
theorem literal?_ident (hname : name ∉ keywords) : literal? (.ident name) = none := by
  rw [literal?.eq_def]
  split
  case h_5 heq | h_6 heq | h_7 heq =>
    cases heq
    exact absurd (by decide) hname
  case h_8 => rfl
  all_goals next heq => cases heq

/-- A name without a parenthesis behind it is a variable. -/
theorem view_primary_var (hname : name ∉ keywords) (h : next? ts ≠ some .openParen) :
    view (primary lastLine (⟨a, .ident name⟩ :: ts)) = .ok (.var name, ts) := by
  rw [primary.eq_def]
  dsimp only
  rw [literal?_ident hname]
  dsimp only
  rw [if_neg (by rwa [List.contains_iff_mem])]
  rcases ts with - | ⟨⟨b, tok⟩, ts⟩
  · rfl
  · cases tok
    case openParen => exact absurd rfl h
    all_goals rfl

theorem view_primary_call (hname : name ∉ keywords) :
    view (primary lastLine (⟨a, .ident name⟩ :: ⟨b, .openParen⟩ :: ts)) =
      view (arguments lastLine ts) >>= fun (args, rest) ↦ .ok (.call name args, rest) := by
  rw [primary.eq_def]
  dsimp only
  rw [literal?_ident hname]
  dsimp only
  rw [if_neg (by rwa [List.contains_iff_mem])]
  rcases arguments lastLine ts with e | p <;> rfl

end Expressions

section Statements

variable {lastLine : Nat} {ts rest : List Token} {a b c : Nat} {name : String} {e : Expr}

/-! ### Arguments without parentheses -/

theorem view_commandArguments_option {named : Bool} {key : String}
    (h : view (expression lastLine ts) = .ok (e, rest)) (hrest : next? rest ≠ some .comma) :
    view (commandArguments lastLine named (⟨a, .label key⟩ :: ts)) =
      .ok (([], [(key, e)]), rest) := by
  obtain ⟨hshorter, hvalue⟩ := view_eq_ok_iff.mp h
  rw [commandArguments.eq_def]
  dsimp only
  rw [hvalue]
  rcases rest with - | ⟨⟨b, tok⟩, rest⟩
  · rfl
  · cases tok
    case comma => exact absurd rfl hrest
    all_goals rfl

/-- After an option there are only options. -/
theorem view_commandArguments_optionComma {named : Bool} {key : String}
    (h : view (expression lastLine ts) = .ok (e, ⟨b, .comma⟩ :: rest)) :
    view (commandArguments lastLine named (⟨a, .label key⟩ :: ts)) =
      view (commandArguments lastLine true rest) >>= fun ((args, options), rest) ↦
        .ok ((args, (key, e) :: options), rest) := by
  obtain ⟨hshorter, hvalue⟩ := view_eq_ok_iff.mp h
  rw [commandArguments.eq_def]
  dsimp only
  rw [hvalue]
  show view (commandArguments lastLine true rest >>= _) =
    view (commandArguments lastLine true rest) >>= _
  rcases commandArguments lastLine true rest with e | p <;> rfl

theorem view_commandArguments_argument (hlabel : ∀ key, next? ts ≠ some (.label key))
    (h : view (expression lastLine ts) = .ok (e, rest)) (hrest : next? rest ≠ some .comma) :
    view (commandArguments lastLine false ts) = .ok (([e], []), rest) := by
  obtain ⟨hshorter, hvalue⟩ := view_eq_ok_iff.mp h
  rw [commandArguments.eq_def]
  split
  · next key _ => exact absurd rfl (hlabel key)
  · rw [if_neg Bool.false_ne_true, hvalue]
    rcases rest with - | ⟨⟨b, tok⟩, rest⟩
    · rfl
    · cases tok
      case comma => exact absurd rfl hrest
      all_goals rfl

/-- After an argument there may be arguments and options. -/
theorem view_commandArguments_argumentComma (hlabel : ∀ key, next? ts ≠ some (.label key))
    (h : view (expression lastLine ts) = .ok (e, ⟨b, .comma⟩ :: rest)) :
    view (commandArguments lastLine false ts) =
      view (commandArguments lastLine false rest) >>= fun ((args, options), rest) ↦
        .ok ((e :: args, options), rest) := by
  obtain ⟨hshorter, hvalue⟩ := view_eq_ok_iff.mp h
  rw [commandArguments.eq_def]
  split
  · next key _ => exact absurd rfl (hlabel key)
  · rw [if_neg Bool.false_ne_true, hvalue]
    show view (commandArguments lastLine false rest >>= _) =
      view (commandArguments lastLine false rest) >>= _
    rcases commandArguments lastLine false rest with e | p <;> rfl

/-! ### Statements on one line -/

/-- A `return` takes a value unless its line ends, or goes on with a condition. -/
theorem view_simpleStatement_return (h : endsReturn (next? ts) = false) :
    view (simpleStatement lastLine (⟨a, .ident "return"⟩ :: ts)) =
      view (expression lastLine ts) >>= fun (e, rest) ↦ .ok (.ret a (some e), rest) := by
  rw [simpleStatement]
  dsimp only
  rw [h, if_neg Bool.false_ne_true]
  rcases expression lastLine ts with e | p <;> rfl

/-- A `return` at the end of its line, or before a condition, has no value. -/
theorem view_simpleStatement_bareReturn (h : endsReturn (next? ts) = true) :
    view (simpleStatement lastLine (⟨a, .ident "return"⟩ :: ts)) = .ok (.ret a none, ts) := by
  rw [simpleStatement, if_pos h]
  rfl

/-- What a statement that starts with a name goes on to be. -/
def nameView (lastLine line : Nat) (name : String) (all : List Token) :
    List Token → Attempt (Stmt × List Token)
  | ⟨_, .sign .assign⟩ :: ts =>
    view (expression lastLine ts) >>= fun (e, rest) ↦ .ok (.assign line name e, rest)
  | ts =>
    if (next? ts).any startsArgument then
      view (commandArguments lastLine false ts) >>= fun ((args, options), rest) ↦
        .ok (.command line name args options, rest)
    else view (expression lastLine all) >>= fun (e, rest) ↦ .ok (.expr line e, rest)

/-- What comes after a name, if no assignment does, tells a call from an expression. -/
theorem nameView_of_ne {line : Nat} {all : List Token} (h : next? ts ≠ some (.sign .assign)) :
    nameView lastLine line name all ts =
      if (next? ts).any startsArgument then
        view (commandArguments lastLine false ts) >>= fun ((args, options), rest) ↦
          .ok (.command line name args options, rest)
      else view (expression lastLine all) >>= fun (e, rest) ↦ .ok (.expr line e, rest) := by
  rw [nameView.eq_def]
  split
  · exact absurd rfl h
  · rfl

theorem view_simpleStatement_name {all : List Token} (hname : name ∉ keywords)
    (hall : all = ⟨a, .ident name⟩ :: ts) :
    view (simpleStatement lastLine all) = nameView lastLine a name all ts := by
  have hcontains : ¬keywords.contains name = true := by rwa [List.contains_iff_mem]
  rw [simpleStatement.eq_def]
  split
  · obtain ⟨heq, -⟩ := List.cons.inj hall
    cases heq
    exact absurd (by decide) hname
  · next more _ =>
    obtain ⟨heq, htail⟩ := List.cons.inj hall
    cases heq
    subst htail
    rw [if_neg hcontains]
    split
    · next more =>
      rw [nameView]
      rcases expression lastLine more with e | p <;> rfl
    · next hassign =>
      rw [nameView_of_ne]
      · split
        · rcases commandArguments lastLine false more with e | p <;> rfl
        · rw [simpleStatement.wholeExpression]
          rcases expression lastLine (⟨a, .ident name⟩ :: more) with e | p <;> rfl
      · rcases more with - | ⟨⟨b, tok⟩, more⟩
        · exact fun h ↦ (by cases h)
        · rintro ⟨⟩
          exact hassign b more rfl
  · next hno => exact absurd hall (hno _ _ _)

theorem view_simpleStatement_assign (hname : name ∉ keywords) :
    view (simpleStatement lastLine (⟨a, .ident name⟩ :: ⟨b, .sign .assign⟩ :: ts)) =
      view (expression lastLine ts) >>= fun (e, rest) ↦ .ok (.assign a name e, rest) :=
  view_simpleStatement_name hname rfl

theorem view_simpleStatement_command (hname : name ∉ keywords)
    (h : (next? ts).any startsArgument = true) :
    view (simpleStatement lastLine (⟨a, .ident name⟩ :: ts)) =
      view (commandArguments lastLine false ts) >>= fun ((args, options), rest) ↦
        .ok (.command a name args options, rest) := by
  rw [view_simpleStatement_name hname rfl, nameView_of_ne, if_pos h]
  intro heq
  rw [heq] at h
  cases h

/-- A statement that starts with no name, or with one that neither a value nor arguments follow. -/
theorem view_simpleStatement_expr {t : Token} (hreturn : t.tok ≠ .ident "return")
    (hname : ∀ name, t.tok = .ident name → name ∈ keywords ∨
      next? ts ≠ some (.sign .assign) ∧ (next? ts).any startsArgument = false) :
    view (simpleStatement lastLine (t :: ts)) =
      view (expression lastLine (t :: ts)) >>= fun (e, rest) ↦ .ok (.expr t.line e, rest) := by
  have hwhole : view (simpleStatement.wholeExpression lastLine t.line (t :: ts)) =
      view (expression lastLine (t :: ts)) >>= fun (e, rest) ↦ .ok (.expr t.line e, rest) := by
    rw [simpleStatement.wholeExpression]
    rcases expression lastLine (t :: ts) with e | p <;> rfl
  obtain ⟨a, tok⟩ := t
  cases tok
  case ident name =>
    by_cases hkeyword : name ∈ keywords
    · generalize hall : (⟨a, .ident name⟩ :: ts : List Token) = all at hwhole ⊢
      rw [simpleStatement.eq_def]
      split
      · cases (List.cons.inj hall).1
        exact absurd rfl hreturn
      · obtain ⟨heq, htail⟩ := List.cons.inj hall
        cases heq
        rw [if_pos (List.contains_iff_mem.mpr hkeyword)]
        subst htail
        exact hwhole
      · next hno => exact absurd hall.symm (hno _ _ _)
    · obtain ⟨hassign, harguments⟩ := (hname name rfl).resolve_left hkeyword
      rw [view_simpleStatement_name hkeyword rfl, nameView_of_ne hassign, harguments,
        if_neg Bool.false_ne_true]
  all_goals exact hwhole

/-- A statement stays as it is if no condition follows it. -/
theorem view_withCondition_stop {n : Nat} {p : Parsed n Stmt}
    (h : next? p.rest ≠ some (.ident "if")) :
    view (withCondition lastLine p) = .ok p.pair := by
  rw [withCondition.eq_def]
  split
  · next heq =>
    rw [heq] at h
    exact absurd rfl h
  · rfl

/-- A condition behind a statement makes it the only thing that the condition runs. -/
theorem view_withCondition_if {n : Nat} {p : Parsed n Stmt}
    (h : p.rest = ⟨a, .ident "if"⟩ :: ts) :
    view (withCondition lastLine p) =
      view (expression lastLine ts) >>= fun (e, rest) ↦
        .ok (.cond p.value.line [(e, [p.value])] [], rest) := by
  rw [withCondition.eq_def]
  split
  · next heq =>
    rw [h] at heq
    cases heq
    rcases expression lastLine ts with e | q <;> rfl
  · next hno => exact absurd h (hno _ _)

/-! ### Blocks -/

theorem view_block_nil : view (block lastLine []) = .ok ([], []) := by
  rw [block.eq_def]
  rfl

/-- Empty lines are skipped. -/
theorem view_block_newline : view (block lastLine (⟨a, .newline⟩ :: ts)) = view (block lastLine ts) := by
  rw [block.eq_def]
  show view (block lastLine ts >>= _) = _
  rcases block lastLine ts with e | p <;> rfl

/-- A closing word is left. -/
theorem view_block_closer (h : (Closer.at? ts).isSome = true) :
    view (block lastLine ts) = .ok ([], ts) := by
  rcases ts with - | ⟨t, ts⟩
  · cases h
  · have hcloser : (Closer.ofTok? t.tok).isSome = true := h
    have hnewline : t.tok.isNewline = false := by
      rcases htok : t.tok
      case newline =>
        rw [htok] at hcloser
        cases hcloser
      all_goals rfl
    rw [block.eq_def]
    dsimp only
    rw [hnewline, if_neg Bool.false_ne_true, if_pos hcloser]
    rfl

/-- A statement that ends its line or comes before a closing word. -/
theorem view_block_statement {t : Token} {s : Stmt} (hnewline : t.tok.isNewline = false)
    (hcloser : Closer.ofTok? t.tok = none)
    (h : view (statement lastLine (t :: ts)) = .ok (s, rest))
    (hrest : (next? rest).all fun tok ↦ tok.isNewline || (Closer.ofTok? tok).isSome) :
    view (block lastLine (t :: ts)) =
      view (block lastLine rest) >>= fun (ss, rest) ↦ .ok (s :: ss, rest) := by
  obtain ⟨hshorter, hstmt⟩ := view_eq_ok_iff.mp h
  rw [block.eq_def]
  dsimp only
  rw [hnewline, hcloser, if_neg Bool.false_ne_true, if_neg (fun h ↦ (by cases h)), hstmt]
  show view (if (next? rest).all _ = true then _ else _) = _
  rw [if_pos hrest]
  rcases block lastLine rest with e | p <;> rfl

/-- The closing word ends the branches. -/
theorem view_branches_finish {ifLine : Nat} :
    view (branches lastLine ifLine (⟨a, .ident "end"⟩ :: ts)) = .ok (([], []), ts) := by
  rw [branches.eq_def]
  rfl

theorem view_branches_elseIf {ifLine : Nat} {ss rest' : List Token} {body : List Stmt}
    {arms : List (Expr × List Stmt)} {otherwise : List Stmt}
    (hcond : view (expression lastLine ts) = .ok (e, ss))
    (hbody : view (block lastLine ss) = .ok (body, rest))
    (hbranches : view (branches lastLine ifLine rest) = .ok ((arms, otherwise), rest')) :
    view (branches lastLine ifLine (⟨a, .ident "elsif"⟩ :: ts)) =
      .ok (((e, body) :: arms, otherwise), rest') := by
  obtain ⟨hc, hcond⟩ := view_eq_ok_iff.mp hcond
  obtain ⟨hb, hbody⟩ := view_eq_ok_iff.mp hbody
  obtain ⟨hr, hbranches⟩ := view_eq_ok_iff.mp hbranches
  rw [branches.eq_def]
  show view (expression lastLine ts >>= _) = _
  rw [hcond]
  show view (block lastLine ss >>= _) = _
  rw [hbody]
  show view (branches lastLine ifLine rest >>= _) = _
  rw [hbranches]
  rfl

theorem view_branches_otherwise {ifLine : Nat} {ss : List Stmt}
    (h : view (block lastLine ts) = .ok (ss, ⟨b, .ident "end"⟩ :: rest)) :
    view (branches lastLine ifLine (⟨a, .ident "else"⟩ :: ts)) = .ok (([], ss), rest) := by
  obtain ⟨hshorter, hblock⟩ := view_eq_ok_iff.mp h
  rw [branches.eq_def]
  show view (block lastLine ts >>= _) = _
  rw [hblock]
  rfl

/-- A body takes the word that closes it. -/
theorem view_closedBody {what : String} {ss : List Stmt}
    (h : view (block lastLine ts) = .ok (ss, ⟨b, .ident "end"⟩ :: rest)) :
    view (closedBody lastLine what ts) = .ok (ss, rest) := by
  obtain ⟨hshorter, hblock⟩ := view_eq_ok_iff.mp h
  rw [closedBody.eq_def, hblock]
  rfl

/-! ### Statements -/

theorem view_statement_if {ss rest' : List Token} {body : List Stmt}
    {arms : List (Expr × List Stmt)} {otherwise : List Stmt}
    (hcond : view (expression lastLine ts) = .ok (e, ss))
    (hbody : view (block lastLine ss) = .ok (body, rest))
    (hbranches : view (branches lastLine a rest) = .ok ((arms, otherwise), rest')) :
    view (statement lastLine (⟨a, .ident "if"⟩ :: ts)) =
      .ok (.cond a ((e, body) :: arms) otherwise, rest') := by
  obtain ⟨hc, hcond⟩ := view_eq_ok_iff.mp hcond
  obtain ⟨hb, hbody⟩ := view_eq_ok_iff.mp hbody
  obtain ⟨hr, hbranches⟩ := view_eq_ok_iff.mp hbranches
  rw [statement.eq_def]
  show view (expression lastLine ts >>= _) = _
  rw [hcond]
  show view (block lastLine ss >>= _) = _
  rw [hbody]
  show view (branches lastLine a rest >>= _) = _
  rw [hbranches]
  rfl

/-- A statement of one line, with nothing behind it. -/
theorem view_statement_simple {s : Stmt} (hif : next? ts ≠ some (.ident "if"))
    (hdefine : next? ts ≠ some (.ident "define")) (hloop : next? ts ≠ some (.ident "live_loop"))
    (h : view (simpleStatement lastLine ts) = .ok (s, rest))
    (hrest : next? rest ≠ some (.ident "if")) :
    view (statement lastLine ts) = .ok (s, rest) := by
  obtain ⟨hs, hsimple⟩ := view_eq_ok_iff.mp h
  rw [statement.eq_def]
  split
  · exact absurd rfl hif
  · exact absurd rfl hdefine
  · exact absurd rfl hloop
  · rw [hsimple]
    exact view_withCondition_stop hrest

/-- A statement of one line with a condition behind it. -/
theorem view_statement_guarded {s : Stmt} {ss : List Token} (hif : next? ts ≠ some (.ident "if"))
    (hdefine : next? ts ≠ some (.ident "define")) (hloop : next? ts ≠ some (.ident "live_loop"))
    (h : view (simpleStatement lastLine ts) = .ok (s, ⟨a, .ident "if"⟩ :: ss))
    (hcond : view (expression lastLine ss) = .ok (e, rest)) :
    view (statement lastLine ts) = .ok (.cond s.line [(e, [s])] [], rest) := by
  obtain ⟨hs, hsimple⟩ := view_eq_ok_iff.mp h
  rw [statement.eq_def]
  split
  · exact absurd rfl hif
  · exact absurd rfl hdefine
  · exact absurd rfl hloop
  · rw [hsimple]
    show view (withCondition lastLine ⟨s, ⟨a, .ident "if"⟩ :: ss, hs⟩) = _
    rw [view_withCondition_if rfl, hcond]
    rfl

theorem view_parameter?_none (h : next? ts ≠ some .pipe) :
    view (parameter? lastLine ts) = .ok (none, ts) := by
  rw [parameter?.eq_def]
  split
  case h_4 => rfl
  all_goals exact absurd rfl h

theorem view_statement_define {param : Option String} {ss : List Token} {body : List Stmt}
    (hparam : view (parameter? lastLine ts) = .ok (param, ss))
    (hbody : view (closedBody lastLine "define" ss) = .ok (body, rest))
    (hrest : next? rest ≠ some (.ident "if")) :
    view (statement lastLine
      (⟨a, .ident "define"⟩ :: ⟨b, .symbol name⟩ :: ⟨c, .ident "do"⟩ :: ts)) =
      .ok (.define a name param body, rest) := by
  obtain ⟨hp, hparam⟩ := view_eq_ok_iff.mp hparam
  obtain ⟨hs, hclosed⟩ := view_eq_ok_iff.mp hbody
  rw [statement.eq_def]
  show view (parameter? lastLine ts >>= _) = _
  rw [hparam]
  show view (closedBody lastLine "define" ss >>= _) = _
  rw [hclosed]
  exact view_withCondition_stop hrest

theorem view_statement_liveLoop {body : List Stmt}
    (hbody : view (closedBody lastLine "live_loop" ts) = .ok (body, rest))
    (hrest : next? rest ≠ some (.ident "if")) :
    view (statement lastLine (⟨a, .ident "live_loop"⟩ :: ⟨b, .symbol name⟩ :: ⟨c, .ident "do"⟩ :: ts)) =
      .ok (.liveLoop a name body, rest) := by
  obtain ⟨hs, hclosed⟩ := view_eq_ok_iff.mp hbody
  rw [statement.eq_def]
  show view (closedBody lastLine "live_loop" ts >>= _) = _
  rw [hclosed]
  exact view_withCondition_stop hrest

/-- A block that takes all tokens is the script. -/
theorem parseTokens_of_block {ss : List Stmt}
    (h : view (block ((ts.getLast?.map (·.line)).getD 0) ts) = .ok (ss, [])) :
    parseTokens ts = .ok ss := by
  obtain ⟨hshorter, hblock⟩ := view_eq_ok_iff.mp h
  rw [parseTokens, hblock]
  rfl

end Statements

end StepSequencer.Script
