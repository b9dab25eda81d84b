import StepSequencer.Proofs.Script.Statements

/-!
# Scripts in block layout

Each statement stands on lines of its own, the body of a block on lines between the word that opens
it and its `end`, and an operator with its operands between parentheses (`Stmt.laidOut`,
`Expr.spelled`). Tokens laid out in this way are read as just the statements they lay out, on
whatever lines they stand (`laidOutBody_reads`).

What makes this work is that the first token of a line tells what the line is. A name is the start of
an assignment, of a call without parentheses, or of an expression; `SpellsSuffixed.goesOn` says what
may come second in an expression, and none of it starts the other two.
-/

namespace StepSequencer.Script

/-- A name that is neither a reserved word nor an operator. -/
def IsFree (name : String) : Prop := name ∉ keywords ∧ name ≠ "not"

instance (name : String) : Decidable (IsFree name) :=
  inferInstanceAs (Decidable (name ∉ keywords ∧ name ≠ "not"))

/-! ### Expressions -/

/-- The sign that writes an operator before its operand. -/
def UnaryOp.sign : UnaryOp → Sign
  | .neg => .minus
  | .not => .bang

namespace Expr

mutual

/-- The tokens of the expression, with parentheses around every operator and its operands. -/
def spelled : Expr → List Tok
  | .int value => [.int value]
  | .float value => [.float value]
  | .bool value => [.ident (toString value)]
  | .nil => [.ident "nil"]
  | .str value => [.str value]
  | .symbol name => [.symbol name]
  | .var name => [.ident name]
  | .unary op operand => .openParen :: (.sign op.sign :: operand.spelled ++ [.closeParen])
  | .binary op lhs rhs =>
    .openParen :: (lhs.spelled ++ .sign op.sign :: rhs.spelled ++ [.closeParen])
  | .call name args => .ident name :: .openParen :: spelledArguments args
  | .method receiver name [] => receiver.spelled ++ [.dot, .ident name]
  | .method receiver name args =>
    receiver.spelled ++ .dot :: .ident name :: .openParen :: spelledArguments args
  | .index receiver key => receiver.spelled ++ .openBracket :: (key.spelled ++ [.closeBracket])

/-- The tokens of arguments and their closing parenthesis. -/
def spelledArguments : List Expr → List Tok
  | [] => [.closeParen]
  | [arg] => arg.spelled ++ [.closeParen]
  | arg :: args => arg.spelled ++ .comma :: spelledArguments args

end

mutual

/-- Every name in the expression is free. -/
def HasFreeNames : Expr → Prop
  | .var name => IsFree name
  | .unary _ operand => operand.HasFreeNames
  | .binary _ lhs rhs => lhs.HasFreeNames ∧ rhs.HasFreeNames
  | .call name args => IsFree name ∧ HaveFreeNames args
  | .method receiver name args => receiver.HasFreeNames ∧ IsFree name ∧ HaveFreeNames args
  | .index receiver key => receiver.HasFreeNames ∧ key.HasFreeNames
  | _ => True

/-- Every name in the expressions is free. -/
def HaveFreeNames : List Expr → Prop
  | [] => True
  | e :: es => e.HasFreeNames ∧ HaveFreeNames es

end

end Expr

theorem SpellsSuffixed.spells {toks : List Tok} {e : Expr} (h : SpellsSuffixed toks e)
    (ops : List (List BinaryOp)) : Spells ops toks e := (SpellsUnary.suffixed h).spells ops

/-- Arguments of which there is a first are one at least. -/
theorem SpellsArguments.nonempty {toks : List Tok} {arg : Expr} {args : List Expr}
    (h : SpellsArguments toks (arg :: args)) : SpellsSome toks (arg :: args) := by
  cases h with
  | some h => exact h

/-- An operator with its operands, be it on a level or the power, is an expression. -/
theorem spells_binary {ls rs : List Tok} {lhs rhs : Expr} (op : BinaryOp)
    (hl : SpellsSuffixed ls lhs) (hr : SpellsSuffixed rs rhs) :
    Spells levels (ls ++ .sign op.sign :: rs) (.binary op lhs rhs) := by
  by_cases hpow : op = .arith .pow
  · subst hpow
    exact (SpellsUnary.power hl (.suffixed hr)).spells levels
  · obtain ⟨level, ops, hsuffix, hop⟩ := BinaryOp.exists_level hpow
    exact (Spells.binary (levelOp?_sign hop) (hl.spells _) (hr.spells _)).loosen hsuffix

mutual

/-- The tokens of an expression spell it. -/
theorem spelled_spells : (e : Expr) → e.HasFreeNames → SpellsSuffixed e.spelled e
  | .int _, _ | .float _, _ | .bool true, _ | .bool false, _ | .nil, _ | .str _, _ | .symbol _, _ =>
    .primary (.literal rfl)
  | .var _, h => .primary (.var h.1 h.2)
  | .unary op operand, h => by
    have hoperand := SpellsUnary.suffixed (spelled_spells operand h)
    rcases op with - | - <;>
      exact .primary (.paren ((SpellsUnary.leading rfl hoperand).spells levels))
  | .binary op lhs rhs, h => by
    have hwhole := spells_binary op (spelled_spells lhs h.1) (spelled_spells rhs h.2)
    exact .primary (.paren hwhole)
  | .call _ args, h => .primary (.call h.1.1 h.1.2 (spelledArguments_spell args h.2))
  | .method receiver _ [], h => .method (spelled_spells receiver h.1)
  | .method receiver _ (arg :: args), h =>
    .call (spelled_spells receiver h.1) (spelledArguments_spell (arg :: args) h.2.2)
  | .index receiver key, h =>
    .index (spelled_spells receiver h.1) ((spelled_spells key h.2).spells levels)

/-- The tokens of arguments spell them. -/
theorem spelledArguments_spell : (args : List Expr) → Expr.HaveFreeNames args →
    SpellsArguments (Expr.spelledArguments args) args
  | [], _ => .none
  | [arg], h => .some (.last ((spelled_spells arg h.1).spells levels))
  | arg :: next :: args, h => by
    have harg := (spelled_spells arg h.1).spells levels
    exact .some (.more harg (spelledArguments_spell (next :: args) h.2).nonempty)

end

/-! ### Expressions as statements -/

/-- An expression is a statement if the token after a name makes no assignment and no call of it. -/
theorem simpleReads_whole {t : Tok} {ts : List Tok} {e : Expr} (h : Spells levels (t :: ts) e)
    (hbegins : beginsExpr t = true) (hnext : ∀ name, t = .ident name →
      ts.head? ≠ some (.sign .assign) ∧ ts.head?.any startsArgument = false) :
    SimpleReads (t :: ts) fun s ↦ ∃ line, s = .expr line e := by
  have hword : ∀ word ∈ statementWords, t ≠ .ident word := by
    rintro word hword rfl
    rw [beginsExpr, Bool.not_eq_true'] at hbegins
    exact Bool.false_ne_true (hbegins.symm.trans (List.contains_iff_mem.mpr hword))
  refine ⟨⟨t, ts, rfl, isNewline_of_beginsExpr hbegins, fun word hmem ↦ ?_⟩, ?_⟩
  · exact hword word ((by decide : ∀ w ∈ blockWords, w ∈ statementWords) word hmem)
  intro lastLine pre rest hpre hrest
  have hparsed : view (expression lastLine (pre ++ rest)) = .ok (e, rest) :=
    h.parsed hpre hrest.not_continuesExpr
  obtain ⟨⟨a, tok⟩, ps, rfl, rfl, hps⟩ := List.map_eq_cons_iff.mp hpre
  refine ⟨.expr a e, ?_, a, rfl⟩
  rw [List.cons_append] at hparsed ⊢
  rw [view_simpleStatement_expr (hword "return" (by decide)), hparsed]
  · rfl
  -- the token after a name decides, also where it is the first of what follows
  rintro name rfl
  refine .inr ?_
  rcases ts with - | ⟨u, us⟩
  · obtain rfl := List.map_eq_nil_iff.mp hps
    rw [List.nil_append]
    rcases hrest with hrest | hrest <;> rw [hrest] <;> simp [startsArgument]
  · rw [next?_append hps]
    exact hnext name rfl

/-- An operand with what is applied to it is a statement: what may come second in it makes no
assignment and no call without parentheses. -/
theorem simpleReads_expr {toks : List Tok} {e : Expr} (h : SpellsSuffixed toks e) :
    SimpleReads toks fun s ↦ ∃ line, s = .expr line e := by
  obtain ⟨t, ts, rfl, hleading, hbegins⟩ := h.startsOperand
  refine simpleReads_whole (h.spells levels) hbegins ?_
  -- neither `=` nor an argument comes after a name
  rintro name rfl
  have hgoesOn := h.goesOn name ts rfl
  rcases ts with - | ⟨u, us⟩
  · simp
  · cases u
    case dot | openParen | openBracket => simp [startsArgument]
    all_goals cases hgoesOn

/-! ### Calls without parentheses -/

/-- The tokens of options with commas between them. -/
def spelledOptions : List (String × Expr) → List Tok
  | [] => []
  | [(key, e)] => .label key :: e.spelled
  | (key, e) :: options => .label key :: (e.spelled ++ .comma :: spelledOptions options)

/-- The tokens of arguments and options with commas between them. -/
def spelledParts : List Expr → List (String × Expr) → List Tok
  | [], options => spelledOptions options
  | [arg], [] => arg.spelled
  | arg :: args, options => arg.spelled ++ .comma :: spelledParts args options

/-- The tokens of options spell them. -/
theorem spelledOptions_spell (named : Bool) : (options : List (String × Expr)) → options ≠ [] →
    (∀ o ∈ options, o.2.HasFreeNames) → SpellsParts named (spelledOptions options) [] options
  | [], h, _ => absurd rfl h
  | [(_, e)], _, hfree => .option ((spelled_spells e (hfree _ List.mem_cons_self)).spells levels)
  | (_, e) :: next :: options, _, hfree =>
    .moreOptions ((spelled_spells e (hfree _ List.mem_cons_self)).spells levels)
      (spelledOptions_spell true (next :: options) (List.cons_ne_nil _ _)
        fun o ho ↦ hfree o (List.mem_cons_of_mem _ ho))

/-- The tokens of arguments and of the options behind them spell both. -/
theorem spelledParts_spell : (args : List Expr) → (options : List (String × Expr)) →
    args ≠ [] ∨ options ≠ [] → Expr.HaveFreeNames args → (∀ o ∈ options, o.2.HasFreeNames) →
    SpellsParts false (spelledParts args options) args options
  | [], options, hsome, _, hoptions =>
    spelledOptions_spell false options (hsome.resolve_left fun h ↦ h rfl) hoptions
  | [arg], [], _, hargs, _ => .argument ((spelled_spells arg hargs.1).spells levels)
  | [arg], o :: options, _, hargs, hoptions =>
    .moreArguments ((spelled_spells arg hargs.1).spells levels)
      (spelledParts_spell [] (o :: options) (.inr (List.cons_ne_nil _ _)) trivial hoptions)
  | arg :: next :: args, options, _, hargs, hoptions =>
    .moreArguments ((spelled_spells arg hargs.1).spells levels)
      (spelledParts_spell (next :: args) options (.inl (List.cons_ne_nil _ _)) hargs.2 hoptions)

/-- The first token is that of the first argument, or an option. -/
theorem head?_spelledParts {args : List Expr} {options : List (String × Expr)}
    (hsome : args ≠ [] ∨ options ≠ [])
    (hfirst : args.head?.all (fun e ↦ e.spelled.head?.any startsArgument) = true) :
    (spelledParts args options).head?.any startsArgument = true := by
  match args, options with
  | [], [] => simp at hsome
  | [], [_] | [], _ :: _ :: _ => rfl
  | [_], [] => exact hfirst
  | arg :: _ :: _, _ | [arg], _ :: _ =>
    have hhead : arg.spelled.head?.any startsArgument = true := hfirst
    simp only [spelledParts]
    rcases hspelled : arg.spelled with - | ⟨t, ts⟩ <;> rw [hspelled] at hhead
    · cases hhead
    · exact hhead

/-! ### Statements -/

/-- The end of a condition, with a last branch before it unless that is empty. -/
def lastBranch : List Tok → List Tok
  | [] => [.ident "end"]
  | toks => .ident "else" :: .newline :: (toks ++ [.ident "end"])

mutual

/-- The tokens of the statement, without the end of its last line. -/
def Stmt.laidOut : Stmt → List Tok
  | .assign _ name value => .ident name :: .sign .assign :: value.spelled
  | .command _ name args options => .ident name :: spelledParts args options
  | .define _ name param body => .ident "define" :: .symbol name :: .ident "do" ::
    (parameterToks param ++ .newline :: (laidOutBody body ++ [.ident "end"]))
  | .liveLoop _ name body => .ident "live_loop" :: .symbol name :: .ident "do" :: .newline ::
    (laidOutBody body ++ [.ident "end"])
  | .cond _ arms otherwise => laidOutArms "if" arms ++ lastBranch (laidOutBody otherwise)
  | .ret _ none => [.ident "return"]
  | .ret _ (some value) => .ident "return" :: value.spelled
  | .expr _ value => value.spelled

/-- The tokens of statements, each with the end of its line. -/
def laidOutBody : List Stmt → List Tok
  | [] => []
  | s :: ss => s.laidOut ++ .newline :: laidOutBody ss

/-- The tokens of conditions with what they run, the first of them after the given word. -/
def laidOutArms (word : String) : List (Expr × List Stmt) → List Tok
  | [] => []
  | (e, body) :: arms =>
    .ident word :: (e.spelled ++ .newline :: (laidOutBody body ++ laidOutArms "elsif" arms))

end

mutual

/-- The statement can be laid out: its names are free, a condition has a branch, and a call without
parentheses has an argument, the first of which cannot be taken for anything else. -/
def Stmt.IsPlain : Stmt → Prop
  | .assign _ name value => IsFree name ∧ value.HasFreeNames
  | .command _ name args options => IsFree name ∧ Expr.HaveFreeNames args ∧
    (∀ o ∈ options, o.2.HasFreeNames) ∧ (args ≠ [] ∨ options ≠ []) ∧
    args.head?.all (fun e ↦ e.spelled.head?.any startsArgument) = true
  | .define _ _ param body => (∀ name ∈ param, IsFree name) ∧ IsPlainBody body
  | .liveLoop _ _ body => IsPlainBody body
  | .cond _ arms otherwise => arms ≠ [] ∧ ArePlainArms arms ∧ IsPlainBody otherwise
  | .ret _ value => ∀ e ∈ value, e.HasFreeNames
  | .expr _ value => value.HasFreeNames

/-- Each statement can be laid out. -/
def IsPlainBody : List Stmt → Prop
  | [] => True
  | s :: ss => s.IsPlain ∧ IsPlainBody ss

/-- Each condition, and what it runs, can be laid out. -/
def ArePlainArms : List (Expr × List Stmt) → Prop
  | [] => True
  | (e, body) :: arms => e.HasFreeNames ∧ IsPlainBody body ∧ ArePlainArms arms

end

mutual

/-- The statement with all its lines forgotten. -/
def Stmt.unlined : Stmt → Stmt
  | .assign _ name value => .assign 0 name value
  | .command _ name args options => .command 0 name args options
  | .define _ name param body => .define 0 name param (unlinedBody body)
  | .liveLoop _ name body => .liveLoop 0 name (unlinedBody body)
  | .cond _ arms otherwise => .cond 0 (unlinedArms arms) (unlinedBody otherwise)
  | .ret _ value => .ret 0 value
  | .expr _ value => .expr 0 value

/-- Statements with all their lines forgotten. -/
def unlinedBody : List Stmt → List Stmt
  | [] => []
  | s :: ss => s.unlined :: unlinedBody ss

/-- Conditions with what they run, with all lines forgotten. -/
def unlinedArms : List (Expr × List Stmt) → List (Expr × List Stmt)
  | [] => []
  | (e, body) :: arms => (e, unlinedBody body) :: unlinedArms arms

end

/-- An empty last branch is left out, and nothing is read for it. -/
theorem branchesRead_lastBranch {toks : List Tok} {q : List Stmt → Prop} (h : BlockReads toks q) :
    BranchesRead (lastBranch toks) fun arms otherwise ↦ arms = [] ∧ q otherwise := by
  rcases toks with - | ⟨t, ts⟩
  · -- an empty block is read from no tokens at all
    obtain ⟨ss, hss, hview⟩ := h 0 [] [] rfl
    rw [List.nil_append, view_block_nil] at hview
    have hnil : [] = ss ++ [] := congrArg Prod.fst (Except.ok.inj hview)
    rw [List.append_nil] at hnil
    exact branchesRead_end.mono fun _ _ ⟨harms, hotherwise⟩ ↦ ⟨harms, hotherwise ▸ hnil ▸ hss⟩
  · exact branchesRead_else h

mutual

/-- A statement in block layout is read as the statement, up to its lines. -/
theorem Stmt.laidOut_reads : (s : Stmt) → s.IsPlain →
    StatementReads s.laidOut fun s' ↦ s'.unlined = s.unlined
  | .assign _ _ value, h => by
    refine (simpleReads_assign h.1.1 ((spelled_spells value h.2).spells levels)).statement.mono ?_
    rintro _ ⟨line, rfl⟩
    rfl
  | .command _ _ args options, ⟨hname, hargs, hoptions, hsome, hfirst⟩ => by
    have hparts := spelledParts_spell args options hsome hargs hoptions
    refine (simpleReads_command hname.1 hparts (head?_spelledParts hsome hfirst)).statement.mono ?_
    rintro _ ⟨line, rfl⟩
    rfl
  | .define _ name param body, h => by
    refine (statementReads_define name param (laidOutBody_reads body h.2)).mono ?_
    rintro _ ⟨line, body', rfl, hbody⟩
    rw [Stmt.unlined, Stmt.unlined, hbody]
  | .liveLoop _ name body, h => by
    refine (statementReads_liveLoop name (laidOutBody_reads body h)).mono ?_
    rintro _ ⟨line, body', rfl, hbody⟩
    rw [Stmt.unlined, Stmt.unlined, hbody]
  | .cond _ [] _, h => absurd rfl h.1
  | .cond _ ((e, body) :: arms) otherwise, ⟨_, ⟨he, hbody, harms⟩, hotherwise⟩ => by
    have hlast := branchesRead_lastBranch (laidOutBody_reads otherwise hotherwise)
    have hstatement := statementReads_if ((spelled_spells e he).spells levels)
      (laidOutBody_reads body hbody) (laidOutArms_reads arms harms hlast)
    simp only [Stmt.laidOut, laidOutArms, List.cons_append, List.append_assoc]
    refine hstatement.mono ?_
    rintro _ ⟨line, body', arms', otherwise', rfl, hbody', harms', hotherwise'⟩
    rw [Stmt.unlined, Stmt.unlined, unlinedArms, unlinedArms, hbody', harms', hotherwise']
  | .ret _ none, _ => by
    refine simpleReads_bareReturn.statement.mono ?_
    rintro _ ⟨line, rfl⟩
    rfl
  | .ret _ (some value), h => by
    refine (simpleReads_return ((spelled_spells value (h value rfl)).spells levels)).statement.mono ?_
    rintro _ ⟨line, rfl⟩
    rfl
  | .expr _ value, h => by
    refine (simpleReads_expr (spelled_spells value h)).statement.mono ?_
    rintro _ ⟨line, rfl⟩
    rfl

/-- **Statements in block layout** are read as the statements, up to their lines. -/
theorem laidOutBody_reads : (ss : List Stmt) → IsPlainBody ss →
    BlockReads (laidOutBody ss) fun ss' ↦ unlinedBody ss' = unlinedBody ss
  | [], _ => BlockReads.nil.mono fun _ h ↦ congrArg unlinedBody h
  | s :: ss, h => by
    have hlines := (s.laidOut_reads h.1).line.append (laidOutBody_reads ss h.2)
    rw [List.append_assoc] at hlines
    refine hlines.mono ?_
    rintro _ ⟨_, ss', rfl, ⟨s', rfl, hs⟩, hss⟩
    show s'.unlined :: unlinedBody ss' = s.unlined :: unlinedBody ss
    rw [hs, hss]

/-- Conditions in block layout are read as the conditions, with what they run. -/
theorem laidOutArms_reads : (arms : List (Expr × List Stmt)) → ArePlainArms arms →
    ∀ {toks : List Tok} {q : List Stmt → Prop},
      BranchesRead toks (fun arms' otherwise ↦ arms' = [] ∧ q otherwise) →
      BranchesRead (laidOutArms "elsif" arms ++ toks) fun arms' otherwise ↦
        unlinedArms arms' = unlinedArms arms ∧ q otherwise
  | [], _, _, _, hlast => hlast.mono fun _ _ ⟨harms, h⟩ ↦ ⟨congrArg unlinedArms harms, h⟩
  | (e, body) :: arms, ⟨he, hbody, harms⟩, toks, q, hlast => by
    have hbranches := branchesRead_elseIf ((spelled_spells e he).spells levels)
      (laidOutBody_reads body hbody) (laidOutArms_reads arms harms hlast)
    simp only [laidOutArms, List.cons_append, List.append_assoc]
    refine hbranches.mono ?_
    rintro _ otherwise ⟨body', arms', rfl, hbody', harms', h⟩
    rw [unlinedArms, unlinedArms, hbody', harms']
    exact ⟨rfl, h⟩

end

end StepSequencer.Script
