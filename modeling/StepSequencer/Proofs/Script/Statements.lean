import StepSequencer.Proofs.Script.Grammar

/-!
# What is read of lines and blocks

`StatementReads toks p` says that the tokens, at the end of a line, are read as a statement with the
property `p`; `BlockReads toks q` that a block which begins with the tokens begins with statements
with the property `q` and goes on as the block after them. The properties leave open on which lines
the statements stand.

Statements that hold others are read if their bodies are (`statementReads_cond`,
`statementReads_define`, `statementReads_liveLoop`), and blocks one after the other make up a block
(`BlockReads.append`).
-/

namespace StepSequencer.Script

variable {lastLine : Nat} {toks as bs cs : List Tok} {e : Expr} {args : List Expr}
  {options : List (String × Expr)} {name : String}

/-! ### Arguments without parentheses -/

/-- The tokens are the arguments and options of a call without parentheses. The flag says that an
option has come already. -/
inductive SpellsParts : Bool → List Tok → List Expr → List (String × Expr) → Prop where
  | argument {toks : List Tok} {e : Expr} (h : Spells levels toks e) :
    SpellsParts false toks [e] []
  | moreArguments {toks ts : List Tok} {e : Expr} {args : List Expr}
    {options : List (String × Expr)} (h : Spells levels toks e)
    (hmore : SpellsParts false ts args options) :
    SpellsParts false (toks ++ .comma :: ts) (e :: args) options
  | option {named : Bool} {key : String} {toks : List Tok} {e : Expr} (h : Spells levels toks e) :
    SpellsParts named (.label key :: toks) [] [(key, e)]
  | moreOptions {named : Bool} {key : String} {toks ts : List Tok} {e : Expr} {args : List Expr}
    {options : List (String × Expr)} (h : Spells levels toks e)
    (hmore : SpellsParts true ts args options) :
    SpellsParts named (.label key :: (toks ++ .comma :: ts)) args ((key, e) :: options)

theorem StartsExpr.next?_ne_label (h : StartsExpr toks) {pre rest : List Token}
    (hpre : pre.map (·.tok) = toks) (key : String) : next? (pre ++ rest) ≠ some (.label key) := by
  obtain ⟨t, ts, rfl, ht⟩ := h
  rw [next?_append hpre]
  rintro ⟨⟩
  cases ht

/-- Arguments and options stand on one line. -/
theorem SpellsParts.unbroken {named : Bool} (h : SpellsParts named toks args options) :
    Unbroken toks := by
  induction h with
  | argument h => exact h.unbroken
  | moreArguments h _ ih => exact unbroken_append.mpr ⟨h.unbroken, unbroken_cons.mpr ⟨rfl, ih⟩⟩
  | option h => exact unbroken_cons.mpr ⟨rfl, h.unbroken⟩
  | moreOptions h _ ih =>
    exact unbroken_cons.mpr ⟨rfl, unbroken_append.mpr ⟨h.unbroken, unbroken_cons.mpr ⟨rfl, ih⟩⟩⟩

/-- Arguments and options are read as they are spelled, if neither a comma nor anything else goes on
with them. -/
theorem SpellsParts.reads {named : Bool} (h : SpellsParts named toks args options)
    {pre rest : List Token} (hpre : pre.map (·.tok) = toks)
    (hrest : (next? rest).all (!continuesExpr ·) = true) (hcomma : next? rest ≠ some .comma) :
    view (commandArguments lastLine named (pre ++ rest)) = .ok ((args, options), rest) := by
  induction h generalizing pre with
  | argument h =>
    exact view_commandArguments_argument (h.startsExpr.next?_ne_label hpre) (h.parsed hpre hrest) hcomma
  | moreArguments h _ ih =>
    obtain ⟨p, ps, rfl, hp, hps⟩ := List.map_eq_append_iff.mp hpre
    obtain ⟨⟨a, t⟩, qs, rfl, rfl, hqs⟩ := List.map_eq_cons_iff.mp hps
    have hargument : view (expression lastLine (p ++ ⟨a, .comma⟩ :: (qs ++ rest))) =
        .ok (_, ⟨a, .comma⟩ :: (qs ++ rest)) := h.parsed hp rfl
    rw [List.append_assoc, List.cons_append,
      view_commandArguments_argumentComma (h.startsExpr.next?_ne_label hp) hargument, ih hqs]
    rfl
  | option h =>
    obtain ⟨⟨a, t⟩, ps, rfl, rfl, hps⟩ := List.map_eq_cons_iff.mp hpre
    exact view_commandArguments_option (h.parsed hps hrest) hcomma
  | moreOptions h _ ih =>
    obtain ⟨⟨a, t⟩, ps, rfl, rfl, hps⟩ := List.map_eq_cons_iff.mp hpre
    obtain ⟨p, qs, rfl, hp, hqs⟩ := List.map_eq_append_iff.mp hps
    obtain ⟨⟨b, t⟩, us, rfl, rfl, hus⟩ := List.map_eq_cons_iff.mp hqs
    have hvalue : view (expression lastLine (p ++ ⟨b, .comma⟩ :: (us ++ rest))) =
        .ok (_, ⟨b, .comma⟩ :: (us ++ rest)) := h.parsed hp rfl
    rw [List.cons_append, List.append_assoc, List.cons_append,
      view_commandArguments_optionComma hvalue, ih hus]
    rfl

/-! ### Statements on one line -/

/-- The words that begin a statement with a body, or end one. -/
def blockWords : List String := ["if", "define", "live_loop", "end", "elsif", "else"]

/-- What can follow a statement that holds no other: the end of its line, or a condition. -/
def EndsSimple (rest : List Token) : Prop :=
  next? rest = some .newline ∨ next? rest = some (.ident "if")

/-- Nothing with which a statement ends goes on with an expression. -/
theorem EndsSimple.not_continuesExpr {rest : List Token} (h : EndsSimple rest) :
    (next? rest).all (!continuesExpr ·) = true := by
  rcases h with h | h <;> rw [h] <;> rfl

/-- Nothing with which a statement ends goes on with arguments. -/
theorem EndsSimple.ne_comma {rest : List Token} (h : EndsSimple rest) :
    next? rest ≠ some .comma := by
  rcases h with h | h <;> rw [h] <;> rintro ⟨⟩

/-- The tokens are read as a statement that holds no other. -/
structure SimpleReads (toks : List Tok) (p : Stmt → Prop) : Prop where
  starts : ∃ t ts, toks = t :: ts ∧ t.isNewline = false ∧ ∀ word ∈ blockWords, t ≠ .ident word
  reads : ∀ lastLine pre rest, pre.map (·.tok) = toks → EndsSimple rest →
    ∃ s, view (simpleStatement lastLine (pre ++ rest)) = .ok (s, rest) ∧ p s

theorem not_mem_blockWords (hname : name ∉ keywords) : name ∉ blockWords := fun h ↦
  hname ((by decide : ∀ w ∈ blockWords, w ∈ keywords) name h)

theorem startsSimple_ident (hname : name ∉ blockWords) (ts : List Tok) :
    ∃ t us, Tok.ident name :: ts = t :: us ∧ t.isNewline = false ∧
      ∀ word ∈ blockWords, t ≠ .ident word := by
  refine ⟨.ident name, ts, rfl, rfl, ?_⟩
  rintro word hword ⟨⟩
  exact hname hword

/-- A value can follow where an expression begins. -/
theorem StartsExpr.endsReturn (h : StartsExpr toks) {pre rest : List Token}
    (hpre : pre.map (·.tok) = toks) : endsReturn (next? (pre ++ rest)) = false := by
  obtain ⟨t, ts, rfl, ht⟩ := h
  rw [next?_append hpre, Script.endsReturn.eq_def]
  split
  case h_1 heq => cases heq
  case h_2 heq | h_3 heq =>
    cases heq
    cases ht
  case h_4 => rfl

/-- A `return` with a value. -/
theorem simpleReads_return (h : Spells levels toks e) :
    SimpleReads (.ident "return" :: toks) fun s ↦ ∃ line, s = .ret line (some e) := by
  refine ⟨startsSimple_ident (by decide) toks, ?_⟩
  intro lastLine pre rest hpre hrest
  obtain ⟨⟨a, t⟩, ps, rfl, rfl, hps⟩ := List.map_eq_cons_iff.mp hpre
  refine ⟨.ret a (some e), ?_, a, rfl⟩
  rw [List.cons_append, view_simpleStatement_return (h.startsExpr.endsReturn hps),
    h.parsed hps hrest.not_continuesExpr]
  rfl

theorem EndsSimple.endsReturn {rest : List Token} (h : EndsSimple rest) :
    endsReturn (next? rest) = true := by
  rcases h with h | h <;> rw [h] <;> rfl

theorem simpleReads_bareReturn :
    SimpleReads [.ident "return"] fun s ↦ ∃ line, s = .ret line none := by
  refine ⟨startsSimple_ident (by decide) [], ?_⟩
  intro lastLine pre rest hpre hrest
  obtain ⟨⟨a, t⟩, ps, rfl, rfl, hps⟩ := List.map_eq_cons_iff.mp hpre
  obtain rfl := List.map_eq_nil_iff.mp hps
  exact ⟨.ret a none, view_simpleStatement_bareReturn hrest.endsReturn, a, rfl⟩

/-- An assignment to a name that is no reserved word. -/
theorem simpleReads_assign (hname : name ∉ keywords) (h : Spells levels toks e) :
    SimpleReads (.ident name :: .sign .assign :: toks) fun s ↦ ∃ line, s = .assign line name e := by
  refine ⟨startsSimple_ident (not_mem_blockWords hname) _, ?_⟩
  intro lastLine pre rest hpre hrest
  obtain ⟨⟨a, t⟩, ps, rfl, rfl, hps⟩ := List.map_eq_cons_iff.mp hpre
  obtain ⟨⟨b, t⟩, qs, rfl, rfl, hqs⟩ := List.map_eq_cons_iff.mp hps
  refine ⟨.assign a name e, ?_, a, rfl⟩
  rw [List.cons_append, List.cons_append, view_simpleStatement_assign hname,
    h.parsed hqs hrest.not_continuesExpr]
  rfl

/-- A name with an argument right behind it is a call without parentheses. -/
theorem simpleReads_command (hname : name ∉ keywords) (h : SpellsParts false toks args options)
    (hfirst : toks.head?.any startsArgument = true) :
    SimpleReads (.ident name :: toks) fun s ↦ ∃ line, s = .command line name args options := by
  refine ⟨startsSimple_ident (not_mem_blockWords hname) toks, ?_⟩
  intro lastLine pre rest hpre hrest
  obtain ⟨⟨a, t⟩, ps, rfl, rfl, hps⟩ := List.map_eq_cons_iff.mp hpre
  have hnext : (next? (ps ++ rest)).any startsArgument = true := by
    rcases toks with - | ⟨t, ts⟩
    · cases hfirst
    · rwa [next?_append hps]
  refine ⟨.command a name args options, ?_, a, rfl⟩
  rw [List.cons_append, view_simpleStatement_command hname hnext,
    h.reads hps hrest.not_continuesExpr hrest.ne_comma]
  rfl

/-! ### Statements -/

/-- A statement begins with the token, and no block ends there. -/
def beginsStatement (tok : Tok) : Bool := !tok.isNewline && (Closer.ofTok? tok).isNone

/-- The tokens, at the end of a line, are read as a statement. -/
structure StatementReads (toks : List Tok) (p : Stmt → Prop) : Prop where
  begins : ∃ t ts, toks = t :: ts ∧ beginsStatement t = true
  reads : ∀ lastLine pre rest, pre.map (·.tok) = toks → next? rest = some .newline →
    ∃ s, view (statement lastLine (pre ++ rest)) = .ok (s, rest) ∧ p s

theorem StatementReads.mono {p q : Stmt → Prop} (h : StatementReads toks p) (himp : ∀ s, p s → q s) :
    StatementReads toks q := by
  refine ⟨h.begins, fun lastLine pre rest hpre hrest ↦ ?_⟩
  obtain ⟨s, hs, hp⟩ := h.reads lastLine pre rest hpre hrest
  exact ⟨s, hs, himp s hp⟩

/-- Any token begins a statement but the end of a line and the words of blocks. -/
theorem beginsStatement_of_ne {t : Tok} (hnewline : t.isNewline = false)
    (ht : ∀ word ∈ blockWords, t ≠ .ident word) : beginsStatement t = true := by
  have hcloser : Closer.ofTok? t = none := by
    rw [Closer.ofTok?.eq_def]
    split
    case h_4 => rfl
    all_goals exact absurd rfl (ht _ (by decide))
  rw [beginsStatement, hnewline, hcloser]
  rfl

theorem next?_ne_of_newline {rest : List Token} (h : next? rest = some .newline) :
    next? rest ≠ some (.ident name) := by
  rw [h]
  rintro ⟨⟩

namespace SimpleReads

variable {p : Stmt → Prop}

/-- A statement of one line has a first token, which begins a statement. -/
theorem begins (h : SimpleReads toks p) :
    ∃ t ts, toks = t :: ts ∧ beginsStatement t = true := by
  obtain ⟨t, ts, rfl, hnewline, ht⟩ := h.starts
  exact ⟨t, ts, rfl, beginsStatement_of_ne hnewline ht⟩

theorem next?_ne_ident (h : SimpleReads toks p) {pre rest : List Token}
    (hpre : pre.map (·.tok) = toks) {word : String} (hword : word ∈ blockWords) :
    next? (pre ++ rest) ≠ some (.ident word) := by
  obtain ⟨t, ts, rfl, -, ht⟩ := h.starts
  rw [next?_append hpre]
  exact fun heq ↦ ht word hword (Option.some.inj heq)

/-- A statement of one line is a statement. -/
theorem statement (h : SimpleReads toks p) : StatementReads toks p := by
  refine ⟨h.begins, ?_⟩
  intro lastLine pre rest hpre hrest
  obtain ⟨s, hs, hp⟩ := h.reads lastLine pre rest hpre (.inl hrest)
  refine ⟨s, ?_, hp⟩
  exact view_statement_simple (h.next?_ne_ident hpre (by decide))
    (h.next?_ne_ident hpre (by decide)) (h.next?_ne_ident hpre (by decide)) hs
    (next?_ne_of_newline hrest)

/-- A condition after the statement. -/
theorem guarded (h : SimpleReads toks p) (hcond : Spells levels cs e) :
    StatementReads (toks ++ .ident "if" :: cs) fun s ↦
      ∃ line s', s = .cond line [(e, [s'])] [] ∧ p s' := by
  obtain ⟨t, ts, htoks, ht⟩ := h.begins
  refine ⟨⟨t, ts ++ .ident "if" :: cs, by rw [htoks, List.cons_append], ht⟩, ?_⟩
  intro lastLine pre rest hpre hrest
  obtain ⟨q, qs, rfl, hq, hqs⟩ := List.map_eq_append_iff.mp hpre
  obtain ⟨⟨a, t⟩, us, rfl, rfl, hus⟩ := List.map_eq_cons_iff.mp hqs
  obtain ⟨s, hs, hp⟩ := h.reads lastLine q (⟨a, .ident "if"⟩ :: (us ++ rest)) hq (.inr rfl)
  have hstop : (next? rest).all (!continuesExpr ·) = true := by
    rw [hrest]
    rfl
  refine ⟨.cond s.line [(e, [s])] [], ?_, s.line, s, rfl, hp⟩
  rw [List.append_assoc, List.cons_append]
  exact view_statement_guarded (h.next?_ne_ident hq (by decide))
    (h.next?_ne_ident hq (by decide)) (h.next?_ne_ident hq (by decide)) hs
    (hcond.parsed hus hstop)

end SimpleReads

/-! ### Blocks -/

/-- A block that begins with the tokens begins with what they are read as. -/
def BlockReads (toks : List Tok) (q : List Stmt → Prop) : Prop :=
  ∀ lastLine pre rest, pre.map (·.tok) = toks → ∃ ss, q ss ∧
    view (block lastLine (pre ++ rest)) =
      view (block lastLine rest) >>= fun (more, rest) ↦ .ok (ss ++ more, rest)

namespace BlockReads

variable {q r : List Stmt → Prop}

theorem nil : BlockReads [] (· = []) := by
  intro lastLine pre rest hpre
  obtain rfl := List.map_eq_nil_iff.mp hpre
  refine ⟨[], rfl, ?_⟩
  show view (block lastLine rest) = _
  rcases view (block lastLine rest) with e | p <;> rfl

/-- Two blocks, one after the other, are one block. -/
theorem append (ha : BlockReads as q) (hb : BlockReads bs r) :
    BlockReads (as ++ bs) fun ss ↦ ∃ s t, ss = s ++ t ∧ q s ∧ r t := by
  intro lastLine pre rest hpre
  obtain ⟨a, b, rfl, hpa, hpb⟩ := List.map_eq_append_iff.mp hpre
  obtain ⟨s, hs, hviewa⟩ := ha lastLine a (b ++ rest) hpa
  obtain ⟨t, ht, hviewb⟩ := hb lastLine b rest hpb
  refine ⟨s ++ t, ⟨s, t, rfl, hs, ht⟩, ?_⟩
  rw [List.append_assoc, hviewa, hviewb]
  rcases view (block lastLine rest) with e | ⟨more, rest⟩
  · rfl
  · show Except.ok (s ++ (t ++ more), rest) = Except.ok (s ++ t ++ more, rest)
    rw [List.append_assoc]

theorem mono (h : BlockReads toks q) (himp : ∀ ss, q ss → r ss) : BlockReads toks r := by
  intro lastLine pre rest hpre
  obtain ⟨ss, hss, hview⟩ := h lastLine pre rest hpre
  exact ⟨ss, himp ss hss, hview⟩

/-- The block ends after the tokens. -/
theorem closed (h : BlockReads toks q) (lastLine : Nat) {pre rest : List Token} (hpre : pre.map (·.tok) = toks)
    (hrest : view (block lastLine rest) = .ok ([], rest)) :
    ∃ ss, q ss ∧ view (block lastLine (pre ++ rest)) = .ok (ss, rest) := by
  obtain ⟨ss, hss, hview⟩ := h lastLine pre rest hpre
  refine ⟨ss, hss, ?_⟩
  rw [hview, hrest]
  show Except.ok (ss ++ [], rest) = Except.ok (ss, rest)
  rw [List.append_nil]

/-- Tokens and no more are read as a script. -/
theorem whole (h : BlockReads toks q) {ts : List Token} (hts : ts.map (·.tok) = toks) :
    ∃ ss, q ss ∧ parseTokens ts = .ok ss := by
  have hclosed : ∃ ss, q ss ∧ view (block ((ts.getLast?.map (·.line)).getD 0) (ts ++ [])) =
      .ok (ss, []) := h.closed _ hts view_block_nil
  obtain ⟨ss, hss, hview⟩ := hclosed
  rw [List.append_nil] at hview
  exact ⟨ss, hss, parseTokens_of_block hview⟩

end BlockReads

/-- A line. -/
theorem StatementReads.line {p : Stmt → Prop} (h : StatementReads toks p) :
    BlockReads (toks ++ [Tok.newline]) fun ss ↦ ∃ s, ss = [s] ∧ p s := by
  intro lastLine pre rest hpre
  obtain ⟨ps, qs, rfl, hps, hqs⟩ := List.map_eq_append_iff.mp hpre
  obtain ⟨⟨a, t⟩, us, rfl, rfl, hus⟩ := List.map_eq_cons_iff.mp hqs
  obtain rfl := List.map_eq_nil_iff.mp hus
  obtain ⟨s, hs, hp⟩ := h.reads lastLine ps (⟨a, .newline⟩ :: rest) hps rfl
  obtain ⟨t, ts, rfl, ht⟩ := h.begins
  obtain ⟨u, us, rfl, rfl, hus⟩ := List.map_eq_cons_iff.mp hps
  rw [beginsStatement, Bool.and_eq_true, Bool.not_eq_true', Option.isNone_iff_eq_none] at ht
  refine ⟨[s], ⟨s, rfl, hp⟩, ?_⟩
  rw [List.append_assoc, List.cons_append, List.singleton_append]
  rw [List.cons_append] at hs
  rw [view_block_statement ht.1 ht.2 hs rfl, view_block_newline]
  rfl

/-! ### Statements with bodies -/

theorem view_block_end (line : Nat) (rest : List Token) :
    view (block lastLine (⟨line, .ident "end"⟩ :: rest)) = .ok ([], ⟨line, .ident "end"⟩ :: rest) :=
  view_block_closer rfl

/-- The tokens end a block, and are read as the branches that are left of a condition. -/
structure BranchesRead (toks : List Tok)
    (p : List (Expr × List Stmt) → List Stmt → Prop) : Prop where
  closer : ∃ t ts, toks = t :: ts ∧ (Closer.ofTok? t).isSome = true
  reads : ∀ lastLine ifLine pre rest, pre.map (·.tok) = toks → ∃ arms otherwise, p arms otherwise ∧
    view (branches lastLine ifLine (pre ++ rest)) = .ok ((arms, otherwise), rest)

variable {p : List (Expr × List Stmt) → List Stmt → Prop} {q r : List Stmt → Prop}

theorem BranchesRead.mono {p' : List (Expr × List Stmt) → List Stmt → Prop}
    (h : BranchesRead toks p) (himp : ∀ arms otherwise, p arms otherwise → p' arms otherwise) :
    BranchesRead toks p' := by
  refine ⟨h.closer, fun lastLine ifLine pre rest hpre ↦ ?_⟩
  obtain ⟨arms, otherwise, hp, hview⟩ := h.reads lastLine ifLine pre rest hpre
  exact ⟨arms, otherwise, himp _ _ hp, hview⟩

/-- A block ends before branches. -/
theorem BranchesRead.ends (h : BranchesRead toks p) {pre : List Token} (hpre : pre.map (·.tok) = toks)
    (rest : List Token) : view (block lastLine (pre ++ rest)) = .ok ([], pre ++ rest) := by
  obtain ⟨t, ts, rfl, ht⟩ := h.closer
  refine view_block_closer ?_
  rw [Closer.at?, next?_append hpre]
  exact ht

/-- The closing word alone is no branch. -/
theorem branchesRead_end :
    BranchesRead [.ident "end"] fun arms otherwise ↦ arms = [] ∧ otherwise = [] := by
  refine ⟨⟨_, _, rfl, rfl⟩, fun lastLine ifLine pre rest hpre ↦ ?_⟩
  obtain ⟨⟨a, t⟩, ps, rfl, rfl, hps⟩ := List.map_eq_cons_iff.mp hpre
  obtain rfl := List.map_eq_nil_iff.mp hps
  exact ⟨[], [], ⟨rfl, rfl⟩, view_branches_finish⟩

/-- The last branch is a block between `else` and the closing word. -/
theorem branchesRead_else (hb : BlockReads bs r) :
    BranchesRead (.ident "else" :: .newline :: (bs ++ [Tok.ident "end"])) fun arms otherwise ↦
      arms = [] ∧ r otherwise := by
  refine ⟨⟨_, _, rfl, rfl⟩, fun lastLine ifLine pre rest hpre ↦ ?_⟩
  obtain ⟨⟨a, t⟩, ps, rfl, rfl, hps⟩ := List.map_eq_cons_iff.mp hpre
  obtain ⟨⟨n, t⟩, qs, rfl, rfl, hqs⟩ := List.map_eq_cons_iff.mp hps
  obtain ⟨tb, us, rfl, htb, hus⟩ := List.map_eq_append_iff.mp hqs
  obtain ⟨⟨d, t⟩, vs, rfl, rfl, hvs⟩ := List.map_eq_cons_iff.mp hus
  obtain rfl := List.map_eq_nil_iff.mp hvs
  obtain ⟨otherwise, hr, hview⟩ := hb.closed lastLine htb (view_block_end d rest)
  refine ⟨[], otherwise, ⟨rfl, hr⟩, ?_⟩
  rw [List.cons_append, List.cons_append, List.append_assoc]
  exact view_branches_otherwise (view_block_newline.trans hview)

/-- A further branch has a condition on its line and a block below it. -/
theorem branchesRead_elseIf (hcond : Spells levels cs e) (hbody : BlockReads as q)
    (h : BranchesRead toks p) :
    BranchesRead (.ident "elsif" :: (cs ++ .newline :: (as ++ toks))) fun arms otherwise ↦
      ∃ body arms', arms = (e, body) :: arms' ∧ q body ∧ p arms' otherwise := by
  refine ⟨⟨_, _, rfl, rfl⟩, fun lastLine ifLine pre rest hpre ↦ ?_⟩
  obtain ⟨⟨a, t⟩, ps, rfl, rfl, hps⟩ := List.map_eq_cons_iff.mp hpre
  obtain ⟨c, qs, rfl, hc, hqs⟩ := List.map_eq_append_iff.mp hps
  obtain ⟨⟨n, t⟩, us, rfl, rfl, hus⟩ := List.map_eq_cons_iff.mp hqs
  obtain ⟨ta, vs, rfl, hta, hvs⟩ := List.map_eq_append_iff.mp hus
  obtain ⟨body, hq, hview⟩ := hbody.closed lastLine hta (h.ends hvs rest)
  obtain ⟨arms, otherwise, hp, hbranches⟩ := h.reads lastLine ifLine vs rest hvs
  refine ⟨(e, body) :: arms, otherwise, ⟨body, arms, rfl, hq, hp⟩, ?_⟩
  rw [List.cons_append, List.append_assoc, List.cons_append, List.append_assoc]
  exact view_branches_elseIf (hcond.parsed hc (by rfl)) (view_block_newline.trans hview) hbranches

/-- A condition with what it runs, and further branches. -/
theorem statementReads_if (hcond : Spells levels cs e) (hbody : BlockReads as q)
    (h : BranchesRead toks p) :
    StatementReads (.ident "if" :: (cs ++ .newline :: (as ++ toks))) fun s ↦
      ∃ line body arms otherwise, s = .cond line ((e, body) :: arms) otherwise ∧ q body ∧
        p arms otherwise := by
  refine ⟨⟨_, _, rfl, rfl⟩, fun lastLine pre rest hpre _ ↦ ?_⟩
  obtain ⟨⟨a, t⟩, ps, rfl, rfl, hps⟩ := List.map_eq_cons_iff.mp hpre
  obtain ⟨c, qs, rfl, hc, hqs⟩ := List.map_eq_append_iff.mp hps
  obtain ⟨⟨n, t⟩, us, rfl, rfl, hus⟩ := List.map_eq_cons_iff.mp hqs
  obtain ⟨ta, vs, rfl, hta, hvs⟩ := List.map_eq_append_iff.mp hus
  obtain ⟨body, hq, hview⟩ := hbody.closed lastLine hta (h.ends hvs rest)
  obtain ⟨arms, otherwise, hp, hbranches⟩ := h.reads lastLine a vs rest hvs
  refine ⟨.cond a ((e, body) :: arms) otherwise, ?_, a, body, arms, otherwise, rfl, hq, hp⟩
  rw [List.cons_append, List.append_assoc, List.cons_append, List.append_assoc]
  exact view_statement_if (hcond.parsed hc (by rfl)) (view_block_newline.trans hview) hbranches

/-- A condition with two branches. -/
theorem statementReads_cond (hcond : Spells levels cs e) (ha : BlockReads as q)
    (hb : BlockReads bs r) :
    StatementReads
      (.ident "if" :: (cs ++ .newline ::
        (as ++ .ident "else" :: .newline :: (bs ++ [Tok.ident "end"]))))
      fun s ↦ ∃ line taken otherwise, s = .cond line [(e, taken)] otherwise ∧ q taken ∧ r otherwise := by
  refine (statementReads_if hcond ha (branchesRead_else hb)).mono ?_
  rintro _ ⟨line, taken, _, otherwise, rfl, hq, rfl, hr⟩
  exact ⟨line, taken, otherwise, rfl, hq, hr⟩

/-- The tokens of a parameter, if there is one. -/
def parameterToks : Option String → List Tok
  | none => []
  | some param => [.pipe, .ident param, .pipe]

/-- The parameter between two bars is read, and so is that there is none. -/
theorem parameter_read (param : Option String) {pre rest : List Token}
    (hpre : pre.map (·.tok) = parameterToks param) (hrest : next? rest = some .newline) :
    view (parameter? lastLine (pre ++ rest)) = .ok (param, rest) := by
  rcases param with - | param
  · obtain rfl := List.map_eq_nil_iff.mp hpre
    refine view_parameter?_none ?_
    rw [List.nil_append, hrest]
    rintro ⟨⟩
  · obtain ⟨⟨a, t⟩, ps, rfl, rfl, hps⟩ := List.map_eq_cons_iff.mp hpre
    obtain ⟨⟨b, t⟩, qs, rfl, rfl, hqs⟩ := List.map_eq_cons_iff.mp hps
    obtain ⟨⟨c, t⟩, us, rfl, rfl, hus⟩ := List.map_eq_cons_iff.mp hqs
    obtain rfl := List.map_eq_nil_iff.mp hus
    rfl

/-- A definition. -/
theorem statementReads_define (name : String) (param : Option String) (hbody : BlockReads bs q) :
    StatementReads (.ident "define" :: .symbol name :: .ident "do" :: (parameterToks param ++
      .newline :: (bs ++ [Tok.ident "end"])))
      fun s ↦ ∃ line body, s = .define line name param body ∧ q body := by
  refine ⟨⟨_, _, rfl, rfl⟩, fun lastLine pre rest hpre hrest ↦ ?_⟩
  obtain ⟨⟨a, t⟩, ps, rfl, rfl, hps⟩ := List.map_eq_cons_iff.mp hpre
  obtain ⟨⟨b, t⟩, qs, rfl, rfl, hqs⟩ := List.map_eq_cons_iff.mp hps
  obtain ⟨⟨c, t⟩, us, rfl, rfl, hus⟩ := List.map_eq_cons_iff.mp hqs
  obtain ⟨tp, vs, rfl, htp, hvs⟩ := List.map_eq_append_iff.mp hus
  obtain ⟨⟨n, t⟩, ws, rfl, rfl, hws⟩ := List.map_eq_cons_iff.mp hvs
  obtain ⟨tb, xs, rfl, htb, hxs⟩ := List.map_eq_append_iff.mp hws
  obtain ⟨⟨l, t⟩, last, rfl, rfl, hlast⟩ := List.map_eq_cons_iff.mp hxs
  obtain rfl := List.map_eq_nil_iff.mp hlast
  obtain ⟨body, hq, hview⟩ := hbody.closed lastLine htb (view_block_end l rest)
  refine ⟨.define a name param body, ?_, a, body, rfl, hq⟩
  show view (statement lastLine (_ :: _ :: _ :: (tp ++ _ :: (tb ++ [_]) ++ rest))) = _
  rw [List.append_assoc, List.cons_append, List.append_assoc]
  exact view_statement_define (parameter_read param htp rfl)
    (view_closedBody (view_block_newline.trans hview)) (next?_ne_of_newline hrest)

/-- A loop is a block between its line and the closing word. -/
theorem statementReads_liveLoop (name : String) (hbody : BlockReads bs q) :
    StatementReads (.ident "live_loop" :: .symbol name :: .ident "do" :: .newline ::
      (bs ++ [Tok.ident "end"])) fun s ↦ ∃ line body, s = .liveLoop line name body ∧ q body := by
  refine ⟨⟨_, _, rfl, rfl⟩, ?_⟩
  intro lastLine pre rest hpre hrest
  obtain ⟨⟨a, t⟩, ps, rfl, rfl, hps⟩ := List.map_eq_cons_iff.mp hpre
  obtain ⟨⟨b, t⟩, qs, rfl, rfl, hqs⟩ := List.map_eq_cons_iff.mp hps
  obtain ⟨⟨c, t⟩, us, rfl, rfl, hus⟩ := List.map_eq_cons_iff.mp hqs
  obtain ⟨⟨n, t⟩, vs, rfl, rfl, hvs⟩ := List.map_eq_cons_iff.mp hus
  obtain ⟨tb, ws, rfl, htb, hws⟩ := List.map_eq_append_iff.mp hvs
  obtain ⟨⟨l, t⟩, last, rfl, rfl, hlast⟩ := List.map_eq_cons_iff.mp hws
  obtain rfl := List.map_eq_nil_iff.mp hlast
  obtain ⟨body, hq, hview⟩ := hbody.closed lastLine htb (view_block_end l rest)
  refine ⟨.liveLoop a name body, ?_, a, body, rfl, hq⟩
  show view (statement lastLine (_ :: _ :: _ :: _ :: (tb ++ [_] ++ rest))) = _
  rw [List.append_assoc]
  exact view_statement_liveLoop (view_closedBody (view_block_newline.trans hview))
    (next?_ne_of_newline hrest)

end StepSequencer.Script
