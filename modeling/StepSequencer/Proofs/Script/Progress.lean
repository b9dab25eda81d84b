import StepSequencer.Proofs.Script.Balance

/-!
# Parsers advance

A parser is given the tokens from some position on. If it succeeds, then what it leaves are the
tokens from a later position on, and no position is after the last token (`ParsersAdvance`). Only a
block may leave all that it was given. It ends after the last token or before a word that closes it
(`BlockStops`).

That fewer tokens are left is part of a parser's result. That they are an end of the tokens it was
given (`LeavesEnd`) passes from the parts of a parser to the whole. For expressions it is what
`Taken` says. For statements and blocks it is proved by the parsers' own recursion.
-/

namespace StepSequencer.Script

open Attempts

variable {lastLine : Nat} {ts : List Token}

/-! ### Ends of the tokens -/

/-- What an attempt leaves, if it succeeds, is an end of the tokens. -/
def LeavesEnd (ts : List Token) {n : Nat} {α : Type} (x : Attempt (Parsed n α)) : Prop :=
  ∀ p, x = .ok p → p.rest <:+ ts

namespace LeavesEnd

variable {m n : Nat} {α β : Type} {x : Attempt (Parsed n α)}

theorem ok {p : Parsed n α} (h : p.rest <:+ ts) : LeavesEnd ts (.ok p) := by
  rintro _ ⟨⟩
  exact h

theorem error {e : ParseError} : LeavesEnd ts (.error e : Attempt (Parsed n α)) := by
  rintro _ ⟨⟩

/-- What the second attempt leaves is an end of what the first one left. -/
theorem bind {f : Parsed n α → Attempt (Parsed m β)} (hx : LeavesEnd ts x)
    (hf : ∀ p : Parsed n α, LeavesEnd p.rest (f p)) : LeavesEnd ts (x >>= f) := by
  intro q hq
  obtain ⟨p, hp, hq⟩ := bind_eq_ok_iff.mp hq
  exact (hf p q hq).trans (hx p hp)

/-- An end of some tokens is one of the tokens with another before them. -/
theorem cons (t : Token) (h : LeavesEnd ts x) : LeavesEnd (t :: ts) x :=
  fun p hp ↦ (h p hp).trans (List.suffix_cons t ts)

/-- The attempt is made with the tokens after the first of those that are left. -/
theorem of_cons {t : Token} {rest : List Token} (heq : ts = t :: rest) (h : LeavesEnd rest x) :
    LeavesEnd ts x := heq ▸ h.cons t

end LeavesEnd

/-- What is left after something was taken is an end of the tokens. -/
theorem Taken.suffix {rest : List Token} {q : List Tok → Prop} (h : Taken ts rest q) :
    rest <:+ ts := by
  obtain ⟨pre, rfl, -⟩ := h
  exact List.suffix_append pre rest

/-! ### Expressions -/

/-- Operators and operands are taken from the front, at every level. -/
theorem binaryExpr_leavesEnd (ops : List (List BinaryOp)) :
    LeavesEnd ts (binaryExpr lastLine ops ts) :=
  fun p hp ↦ (binaryTaken lastLine ops ts p hp).suffix

theorem arguments_leavesEnd : LeavesEnd ts (arguments lastLine ts) :=
  fun p hp ↦ ((expressionsTaken lastLine).arguments ts p hp).suffix

theorem expression_leavesEnd : LeavesEnd ts (expression lastLine ts) := binaryExpr_leavesEnd levels

theorem unaryExpr_leavesEnd : LeavesEnd ts (unaryExpr lastLine ts) :=
  fun p hp ↦ ((expressionsTaken lastLine).unary ts p hp).suffix

/-- As an operand, the word `not` is a name like any other. -/
theorem primary_leavesEnd : LeavesEnd ts (primary lastLine ts) := by
  rw [primary.eq_def]
  split
  · exact .error
  · next line tok ts =>
    refine .cons _ ?_
    split
    · exact .ok (List.suffix_refl ts)
    · refine .bind (binaryExpr_leavesEnd levels) fun inner ↦ ?_
      split
      · next hrest => exact .of_cons hrest (.ok (List.suffix_refl _))
      · exact .error
    · split
      · exact .error
      · split
        · exact .cons _ (.bind arguments_leavesEnd fun args ↦ .ok (List.suffix_refl _))
        · exact .ok (List.suffix_refl _)
    · exact .error

/-- What is applied to an operand is taken after it. -/
theorem suffixed_leavesEnd : LeavesEnd ts (suffixed lastLine ts) := by
  rw [suffixed]
  refine .bind primary_leavesEnd fun operand ↦ ?_
  refine .bind (fun p hp ↦ ((expressionsTaken lastLine).suffixes _ _ p hp).suffix) fun e ↦ ?_
  exact .ok (List.suffix_refl _)

/-! ### Statements on one line -/

theorem commandArguments_leavesEnd (named : Bool) :
    LeavesEnd ts (commandArguments lastLine named ts) :=
  fun p hp ↦ (commandArguments_taken named ts p hp).suffix

theorem symbolName_leavesEnd : LeavesEnd ts (symbolName lastLine ts) :=
  fun _ hp ↦ (symbolName_taken hp).suffix

/-- A condition behind a statement is taken from what the statement left. -/
theorem withCondition_leavesEnd {n : Nat} (p : Parsed n Stmt) :
    LeavesEnd p.rest (withCondition lastLine p) := by
  rw [withCondition.eq_def]
  split
  · next hrest =>
    exact .of_cons hrest (.bind expression_leavesEnd fun cond ↦ .ok (List.suffix_refl _))
  · exact .ok (List.suffix_refl _)

/-! ### Statements that hold others -/

/-- After a condition and its first body there are no more tokens than before them. -/
theorem length_le_of_body (cond : Parsed ts.length Expr)
    (body : Parsed (cond.rest.length + 1) (List Stmt)) : body.rest.length ≤ ts.length + 1 := by
  have := cond.shorter
  have := body.shorter
  omega

/-- After a name and the word that opens a body there are no more tokens than before them. -/
theorem length_le_of_opened (name : Parsed ts.length String)
    (opened : Parsed name.rest.length Unit) : opened.rest.length ≤ ts.length + 1 := by
  have := name.shorter
  have := opened.shorter
  omega

/-- After a name, the word that opens a body and a parameter there are no more tokens than before
them. -/
theorem length_le_of_param (name : Parsed ts.length String)
    (opened : Parsed name.rest.length Unit)
    (param : Parsed (opened.rest.length + 1) (Option String)) :
    param.rest.length ≤ ts.length + 1 := by
  have := name.shorter
  have := opened.shorter
  have := param.shorter
  omega

/-- A condition with its branches. -/
def ifStatement (lastLine : Nat) (ts : List Token) : Attempt (Parsed ts.length Stmt) :=
  match ts with
  | ⟨line, .ident "if"⟩ :: ts => do
    let cond ← expression lastLine ts
    let body ← block lastLine cond.rest
    let rest ← branches lastLine line body.rest
    .ok ((rest.map fun (arms, otherwise) ↦
      .cond line ((cond.value, body.value) :: arms) otherwise).weaken
      (length_le_of_body cond body))
  | ts => .error (.expected (lineAt lastLine ts) (.word "if") (next? ts))

/-- The definition of a function. -/
def definition (lastLine : Nat) (ts : List Token) : Attempt (Parsed ts.length Stmt) :=
  match ts with
  | ⟨line, .ident "define"⟩ :: ts => do
    let name ← symbolName lastLine ts
    let opened ← doWord lastLine name.rest
    let param ← parameter? lastLine opened.rest
    let body ← closedBody lastLine "define" param.rest
    .ok ((body.map (.define line name.value param.value)).weaken
      (length_le_of_param name opened param))
  | ts => .error (.expected (lineAt lastLine ts) (.word "define") (next? ts))

/-- A loop that is played. -/
def liveLoop (lastLine : Nat) (ts : List Token) : Attempt (Parsed ts.length Stmt) :=
  match ts with
  | ⟨line, .ident "live_loop"⟩ :: ts => do
    let name ← symbolName lastLine ts
    let opened ← doWord lastLine name.rest
    let body ← closedBody lastLine "live_loop" opened.rest
    .ok ((body.map (.liveLoop line name.value)).weaken (length_le_of_opened name opened))
  | ts => .error (.expected (lineAt lastLine ts) (.word "live_loop") (next? ts))

/-- A statement that begins with `if` is a condition with its branches. No other condition follows
it on its last line. -/
theorem statement_if {line : Nat} :
    statement lastLine (⟨line, .ident "if"⟩ :: ts) =
      ifStatement lastLine (⟨line, .ident "if"⟩ :: ts) := by
  rw [statement]
  rfl

/-- A statement that begins with `define` is a definition, perhaps with a condition behind it. -/
theorem statement_define {line : Nat} :
    statement lastLine (⟨line, .ident "define"⟩ :: ts) =
      definition lastLine (⟨line, .ident "define"⟩ :: ts) >>= withCondition lastLine := by
  rw [statement]
  simp only [definition, bind_assoc]
  rfl

/-- A statement that begins with `live_loop` is a loop, perhaps with a condition behind it. -/
theorem statement_liveLoop {line : Nat} :
    statement lastLine (⟨line, .ident "live_loop"⟩ :: ts) =
      liveLoop lastLine (⟨line, .ident "live_loop"⟩ :: ts) >>= withCondition lastLine := by
  rw [statement]
  simp only [liveLoop, bind_assoc]
  rfl

/-! ### Blocks -/

/-- A block leaves an end of the tokens, which is empty or begins with a word that closes it. -/
def BlockStops (lastLine : Nat) (ts : List Token) : Prop :=
  ∀ p, block lastLine ts = .ok p → p.rest <:+ ts ∧ (p.rest = [] ∨ (Closer.at? p.rest).isSome = true)

theorem BlockStops.leavesEnd (h : BlockStops lastLine ts) : LeavesEnd ts (block lastLine ts) :=
  fun p hp ↦ (h p hp).1

theorem blockStops_nil : BlockStops lastLine [] := by
  intro p hp
  rw [block] at hp
  obtain rfl := Except.ok.inj hp
  exact ⟨List.suffix_refl [], .inl rfl⟩

/-- An empty line is skipped. -/
theorem blockStops_newline {t : Token} (ht : t.tok.isNewline = true) (h : BlockStops lastLine ts) :
    BlockStops lastLine (t :: ts) := by
  intro p hp
  rw [block, if_pos ht] at hp
  obtain ⟨q, hq, hp⟩ := bind_eq_ok_iff.mp hp
  obtain rfl := Except.ok.inj hp
  obtain ⟨hend, hstops⟩ := h q hq
  exact ⟨hend.trans (List.suffix_cons t ts), hstops⟩

/-- A block that begins with a closing word is empty and leaves the word. -/
theorem blockStops_closer {t : Token} (hnewline : ¬t.tok.isNewline = true)
    (ht : (Closer.ofTok? t.tok).isSome = true) : BlockStops lastLine (t :: ts) := by
  intro p hp
  rw [block, if_neg hnewline, if_pos ht] at hp
  obtain rfl := Except.ok.inj hp
  exact ⟨List.suffix_refl (t :: ts), .inr ht⟩

/-- After a statement a block stops where the block of the other statements does. -/
theorem blockStops_statement {t : Token} (hnewline : ¬t.tok.isNewline = true)
    (hcloser : ¬(Closer.ofTok? t.tok).isSome = true)
    (hs : LeavesEnd (t :: ts) (statement lastLine (t :: ts)))
    (h : ∀ s : Parsed (t :: ts).length Stmt, BlockStops lastLine s.rest) :
    BlockStops lastLine (t :: ts) := by
  intro p hp
  rw [block, if_neg hnewline, if_neg hcloser] at hp
  obtain ⟨s, hstatement, hp⟩ := bind_eq_ok_iff.mp hp
  split at hp
  · obtain ⟨ss, hblock, hp⟩ := bind_eq_ok_iff.mp hp
    obtain rfl := Except.ok.inj hp
    obtain ⟨hend, hstops⟩ := h s ss hblock
    exact ⟨hend.trans (hs s hstatement), hstops⟩
  · cases hp

theorem ifStatement_leavesEnd {line : Nat}
    (hbody : ∀ cond : Parsed ts.length Expr, BlockStops lastLine cond.rest)
    (hbranches : ∀ (cond : Parsed ts.length Expr)
      (body : Parsed (cond.rest.length + 1) (List Stmt)),
      LeavesEnd body.rest (branches lastLine line body.rest)) :
    LeavesEnd (⟨line, .ident "if"⟩ :: ts) (ifStatement lastLine (⟨line, .ident "if"⟩ :: ts)) := by
  refine .cons _ (.bind expression_leavesEnd fun cond ↦ ?_)
  refine .bind (hbody cond).leavesEnd fun body ↦ ?_
  exact .bind (hbranches cond body) fun rest ↦ .ok (List.suffix_refl _)

theorem definition_leavesEnd {line : Nat}
    (hbody : ∀ (name : Parsed ts.length String) (opened : Parsed name.rest.length Unit)
      (param : Parsed (opened.rest.length + 1) (Option String)),
      LeavesEnd param.rest (closedBody lastLine "define" param.rest)) :
    LeavesEnd (⟨line, .ident "define"⟩ :: ts)
      (definition lastLine (⟨line, .ident "define"⟩ :: ts)) := by
  refine .cons _ (.bind symbolName_leavesEnd fun name ↦ ?_)
  refine .bind (fun p hp ↦ (doWord_taken hp).suffix) fun opened ↦ ?_
  refine .bind (fun p hp ↦ (parameter?_taken hp).suffix) fun param ↦ ?_
  exact .bind (hbody name opened param) fun body ↦ .ok (List.suffix_refl _)

theorem liveLoop_leavesEnd {line : Nat}
    (hbody : ∀ (name : Parsed ts.length String) (opened : Parsed name.rest.length Unit),
      LeavesEnd opened.rest (closedBody lastLine "live_loop" opened.rest)) :
    LeavesEnd (⟨line, .ident "live_loop"⟩ :: ts)
      (liveLoop lastLine (⟨line, .ident "live_loop"⟩ :: ts)) := by
  refine .cons _ (.bind symbolName_leavesEnd fun name ↦ ?_)
  refine .bind (fun p hp ↦ (doWord_taken hp).suffix) fun opened ↦ ?_
  exact .bind (hbody name opened) fun body ↦ .ok (List.suffix_refl _)

theorem statement_leavesEnd_simple (hif : ∀ line rest, ts = ⟨line, .ident "if"⟩ :: rest → False)
    (hdefine : ∀ line rest, ts = ⟨line, .ident "define"⟩ :: rest → False)
    (hloop : ∀ line rest, ts = ⟨line, .ident "live_loop"⟩ :: rest → False) :
    LeavesEnd ts (statement lastLine ts) := by
  rw [statement]
  · exact .bind (fun p hp ↦ (simpleStatement_taken hp).suffix) withCondition_leavesEnd
  · exact hif
  · exact hdefine
  · exact hloop

/-- A body leaves what comes after the word that closes it. -/
theorem closedBody_leavesEnd {what : String} (h : BlockStops lastLine ts) :
    LeavesEnd ts (closedBody lastLine what ts) := by
  rw [closedBody]
  refine .bind h.leavesEnd fun body ↦ ?_
  split
  · exact .error
  · next t rest hrest =>
    refine .of_cons hrest ?_
    split
    · exact .ok (List.suffix_refl rest)
    · exact .error
    · exact .error

/-- A branch with a condition leaves what the other branches leave. -/
theorem branches_leavesEnd_elseIf {ifLine : Nat} {t : Token}
    (ht : Closer.ofTok? t.tok = some .elseIf)
    (hbody : ∀ cond : Parsed ts.length Expr, BlockStops lastLine cond.rest)
    (hbranches : ∀ (cond : Parsed ts.length Expr)
      (body : Parsed (cond.rest.length + 1) (List Stmt)),
      LeavesEnd body.rest (branches lastLine ifLine body.rest)) :
    LeavesEnd (t :: ts) (branches lastLine ifLine (t :: ts)) := by
  rw [branches, ht]
  refine .cons _ (.bind expression_leavesEnd fun cond ↦ ?_)
  refine .bind (hbody cond).leavesEnd fun body ↦ ?_
  exact .bind (hbranches cond body) fun rest ↦ .ok (List.suffix_refl _)

/-- The last branch leaves what comes after the closing word. -/
theorem branches_leavesEnd_otherwise {ifLine : Nat} {t : Token}
    (ht : Closer.ofTok? t.tok = some .otherwise) (hbody : BlockStops lastLine ts) :
    LeavesEnd (t :: ts) (branches lastLine ifLine (t :: ts)) := by
  rw [branches, ht]
  refine .cons _ (.bind hbody.leavesEnd fun body ↦ ?_)
  split
  · next hrest => exact .of_cons hrest (.ok (List.suffix_refl _))
  · exact .error

/-- What the parsers of statements and blocks leave is an end of the tokens. -/
structure StatementsLeaveEnds (lastLine : Nat) : Prop where
  block : ∀ ts, BlockStops lastLine ts
  statement : ∀ ts, LeavesEnd ts (statement lastLine ts)
  body : ∀ what ts, LeavesEnd ts (closedBody lastLine what ts)
  branches : ∀ ifLine ts, LeavesEnd ts (branches lastLine ifLine ts)

/-- **Statements and blocks leave ends**, by the parsers' own recursion. -/
theorem statementsLeaveEnds (lastLine : Nat) : StatementsLeaveEnds lastLine := by
  have hall :=
    block.mutual_induct (BlockStops lastLine) (fun ts ↦ LeavesEnd ts (statement lastLine ts))
      (fun what ts ↦ LeavesEnd ts (closedBody lastLine what ts))
      (fun ifLine ts ↦ LeavesEnd ts (branches lastLine ifLine ts))
      ?nil ?newline ?closer ?statement ?cond ?define ?liveLoop ?simple ?body ?noBranches ?finish
      ?elseIf ?otherwise ?none
  case nil => exact blockStops_nil
  case newline => exact fun _ _ ↦ blockStops_newline
  case closer => exact fun _ _ ↦ blockStops_closer
  case statement => exact fun _ _ ↦ blockStops_statement
  case cond =>
    exact fun line ts hbody hbranches ↦ statement_if ▸ ifStatement_leavesEnd hbody hbranches
  case define =>
    exact fun line ts hbody ↦
      statement_define ▸ .bind (definition_leavesEnd hbody) withCondition_leavesEnd
  case liveLoop =>
    exact fun line ts hbody ↦
      statement_liveLoop ▸ .bind (liveLoop_leavesEnd hbody) withCondition_leavesEnd
  case simple => exact fun _ ↦ statement_leavesEnd_simple
  case body => exact fun _ _ ↦ closedBody_leavesEnd
  case noBranches =>
    intro ifLine
    rw [branches]
    exact .error
  case finish =>
    intro ifLine t ts ht
    rw [branches, ht]
    exact .cons _ (.ok (List.suffix_refl ts))
  case elseIf => exact fun _ _ _ ↦ branches_leavesEnd_elseIf
  case otherwise => exact fun _ _ _ ↦ branches_leavesEnd_otherwise
  case none =>
    intro ifLine t ts ht
    rw [branches, ht]
    exact .error
  obtain ⟨hblock, hstatement, hbody, hbranches⟩ := hall
  exact ⟨hblock, hstatement, hbody, hbranches⟩

/-! ### Positions -/

/-- Where an attempt from a position on succeeds, it leaves the tokens from a later position on. -/
def Advances (ts : List Token) (pos : Nat) {n : Nat} {α : Type} (x : Attempt (Parsed n α)) : Prop :=
  ∀ p, x = .ok p → ∃ pos', pos < pos' ∧ pos' ≤ ts.length ∧ p.rest = ts.drop pos'

/-- An end with fewer tokens begins at a later position. -/
theorem LeavesEnd.advances {pos : Nat} {α : Type} {x : Attempt (Parsed (ts.drop pos).length α)}
    (h : LeavesEnd (ts.drop pos) x) : Advances ts pos x := by
  intro p hp
  have hend : p.rest <:+ ts := (h p hp).trans (List.drop_suffix pos ts)
  have hle := hend.length_le
  have hlt := p.shorter
  have hlength : (ts.drop pos).length = ts.length - pos := List.length_drop
  exact ⟨ts.length - p.rest.length, by omega, Nat.sub_le _ _, List.suffix_iff_eq_drop.mp hend⟩

/-- Each parser but that of blocks advances from the position. -/
structure ParsersAdvance (lastLine : Nat) (ts : List Token) (pos : Nat) : Prop where
  statement : Advances ts pos (statement lastLine (ts.drop pos))
  expression : Advances ts pos (expression lastLine (ts.drop pos))
  binary : ∀ ops, Advances ts pos (binaryExpr lastLine ops (ts.drop pos))
  unary : Advances ts pos (unaryExpr lastLine (ts.drop pos))
  suffixed : Advances ts pos (suffixed lastLine (ts.drop pos))
  primary : Advances ts pos (primary lastLine (ts.drop pos))
  /-- The arguments of a call, after their opening parenthesis. -/
  arguments : Advances ts pos (arguments lastLine (ts.drop pos))
  commandArguments : ∀ named, Advances ts pos (commandArguments lastLine named (ts.drop pos))
  ifStatement : Advances ts pos (ifStatement lastLine (ts.drop pos))
  definition : Advances ts pos (definition lastLine (ts.drop pos))
  liveLoop : Advances ts pos (liveLoop lastLine (ts.drop pos))
  symbolName : Advances ts pos (symbolName lastLine (ts.drop pos))

/-- **Parsers advance** from every position of the tokens. -/
theorem parsersAdvance (lastLine : Nat) (ts : List Token) (pos : Nat) :
    ParsersAdvance lastLine ts pos := by
  obtain ⟨hblock, hstatement, hbody, hbranches⟩ := statementsLeaveEnds lastLine
  constructor
  case statement => exact (hstatement _).advances
  case expression => exact expression_leavesEnd.advances
  case binary => exact fun ops ↦ (binaryExpr_leavesEnd ops).advances
  case unary => exact unaryExpr_leavesEnd.advances
  case suffixed => exact suffixed_leavesEnd.advances
  case primary => exact primary_leavesEnd.advances
  case arguments => exact arguments_leavesEnd.advances
  case commandArguments => exact fun named ↦ (commandArguments_leavesEnd named).advances
  case ifStatement =>
    refine LeavesEnd.advances ?_
    generalize ts.drop pos = ts
    rw [Script.ifStatement.eq_def]
    split
    · exact ifStatement_leavesEnd (fun _ ↦ hblock _) fun _ _ ↦ hbranches _ _
    · exact .error
  case definition =>
    refine LeavesEnd.advances ?_
    generalize ts.drop pos = ts
    rw [Script.definition.eq_def]
    split
    · exact definition_leavesEnd fun _ _ _ ↦ hbody _ _
    · exact .error
  case liveLoop =>
    refine LeavesEnd.advances ?_
    generalize ts.drop pos = ts
    rw [Script.liveLoop.eq_def]
    split
    · exact liveLoop_leavesEnd fun _ _ ↦ hbody _ _
    · exact .error
  case symbolName => exact symbolName_leavesEnd.advances

/-- A closing word is known by its text. -/
theorem Closer.ofTok?_eq_some_iff {t : Tok} {c : Closer} :
    ofTok? t = some c ↔ t = .ident c.text := by
  refine ⟨tok_of_ofTok?, ?_⟩
  rintro rfl
  cases c <;> rfl

/-- A closing word is at the head of what is left if it is the token at that position. -/
theorem Closer.at?_drop_eq_some_iff {pos : Nat} {c : Closer} :
    at? (ts.drop pos) = some c ↔ ts[pos]?.map (·.tok) = some (.ident c.text) := by
  rw [at?, next?, List.head?_drop, Option.bind_eq_some_iff]
  simp only [ofTok?_eq_some_iff, exists_eq_right]

/-- A block from a position on ends there or later: after the last token, or before the word that
closes it. Whoever asked for the block finds the word, if there is one, at the head of what is left.
-/
def BlockAdvances (lastLine : Nat) (ts : List Token) (pos : Nat) : Prop :=
  ∀ p, block lastLine (ts.drop pos) = .ok p → ∃ pos', pos ≤ pos' ∧ pos' ≤ ts.length ∧
    p.rest = ts.drop pos' ∧ (Closer.at? p.rest = none ↔ pos' = ts.length) ∧
    ∀ word, Closer.at? p.rest = some word ↔ ts[pos']?.map (·.tok) = some (.ident word.text)

/-- **A block advances**, or stays where it is. -/
theorem blockAdvances {pos : Nat} (hpos : pos ≤ ts.length) : BlockAdvances lastLine ts pos := by
  intro p hp
  obtain ⟨hend, hstops⟩ := (statementsLeaveEnds lastLine).block _ p hp
  have hend : p.rest <:+ ts := hend.trans (List.drop_suffix pos ts)
  have hrest : p.rest = ts.drop (ts.length - p.rest.length) := List.suffix_iff_eq_drop.mp hend
  have hle := hend.length_le
  have hlt := p.shorter
  have hlength : (ts.drop pos).length = ts.length - pos := List.length_drop
  refine ⟨_, by omega, Nat.sub_le _ _, hrest, ?_, fun word ↦ ?_⟩
  · have hempty : ts.length - p.rest.length = ts.length ↔ p.rest = [] := by
      rw [← List.length_eq_zero_iff]
      omega
    rw [hempty]
    rcases hstops with hnil | hword
    · exact iff_of_true (hnil ▸ rfl) hnil
    · refine iff_of_false (Option.isSome_iff_ne_none.mp hword) fun hnil ↦ ?_
      rw [hnil] at hword
      cases hword
  · rw [← Closer.at?_drop_eq_some_iff, ← hrest]

end StepSequencer.Script
