import StepSequencer.Script.ExprParser

/-!
# Parsing statements

A block is a run of statements, each on a line of its own, up to one of the words that end a block
or go on with another branch; the word is left for whoever opened the block. A statement that starts
with a name is an assignment, a call without parentheses, or an expression, as the token after the
name decides.
-/

namespace StepSequencer.Script

/-- A word before which a block ends. -/
inductive Closer where
  | finish
  | elseIf
  | otherwise
  deriving DecidableEq

namespace Closer

/-- The written form of the word. -/
def text : Closer → String
  | .finish => "end"
  | .elseIf => "elsif"
  | .otherwise => "else"

/-- The closing word that a token is. -/
def ofTok? : Tok → Option Closer
  | .ident "end" => some .finish
  | .ident "elsif" => some .elseIf
  | .ident "else" => some .otherwise
  | _ => none

/-- The closing word that comes next. -/
def at? (ts : List Token) : Option Closer := (next? ts).bind ofTok?

end Closer

/-- Whether the token can start the first argument of a call without parentheses. -/
def startsArgument : Tok → Bool
  | .int _ | .float _ | .str _ | .symbol _ | .label _ => true
  | .ident name => !(["if", "do", "end", "else", "elsif"].contains name)
  | _ => false

/-- Whether a value can no longer follow on the line: the line ends, or a condition comes. -/
def endsReturn : Option Tok → Bool
  | none | some .newline | some (.ident "if") => true
  | _ => false

/-- A symbol. -/
def symbolName (lastLine : Nat) (ts : List Token) : Attempt (Parsed ts.length String) :=
  match ts with
  | ⟨_, .symbol name⟩ :: ts => .ok ⟨name, ts, length_lt_succ ts⟩
  | ts => .error (.expected (lineAt lastLine (ts.drop 1)) .symbolName (next? ts))

/-- The word that opens a body. -/
def doWord (lastLine : Nat) (ts : List Token) : Attempt (Parsed ts.length Unit) :=
  match ts with
  | ⟨_, .ident "do"⟩ :: ts => .ok ⟨(), ts, length_lt_succ ts⟩
  | ts => .error (.expected (lineAt lastLine ts) (.word "do") (next? ts))

/-- The parameter of a definition, between bars, if there is one. -/
def parameter? (lastLine : Nat) (ts : List Token) :
    Attempt (Parsed (ts.length + 1) (Option String)) :=
  match ts with
  | ⟨_, .pipe⟩ :: ⟨_, .ident name⟩ :: ⟨_, .pipe⟩ :: ts =>
    .ok ⟨some name, ts, by simp only [List.length_cons]; omega⟩
  | ⟨_, .pipe⟩ :: ⟨_, .ident _⟩ :: ts =>
    .error (.expected (lineAt lastLine ts) (.mark "|") (next? ts))
  | ⟨_, .pipe⟩ :: ts => .error (.expected (lineAt lastLine (ts.drop 1)) .parameterName (next? ts))
  | ts => .ok ⟨none, ts, length_lt_succ ts⟩

/-- The arguments of a call without parentheses: expressions, then options. `named` says that an
option has come already. -/
def commandArguments (lastLine : Nat) (named : Bool) (ts : List Token) :
    Attempt (Parsed ts.length (List Expr × List (String × Expr))) :=
  match ts with
  | ⟨_, .label key⟩ :: ts => do
    let value ← expression lastLine ts
    match h : value.rest with
    | ⟨_, .comma⟩ :: rest => do
      let more ← commandArguments lastLine true rest
      .ok ((more.map fun (args, options) ↦ (args, (key, value.value) :: options)).weaken
        (by have := value.shorter; simp only [h, List.length_cons] at *; omega))
    | rest =>
      .ok ⟨([], [(key, value.value)]), rest,
        by have := value.shorter; rw [h] at this; simp only [List.length_cons]; omega⟩
  | ts => do
    if named then .error (.positionalAfterOptions (lineAt lastLine ts))
    else
      let arg ← expression lastLine ts
      match h : arg.rest with
      | ⟨_, .comma⟩ :: rest => do
        let more ← commandArguments lastLine false rest
        .ok ((more.map fun (args, options) ↦ (arg.value :: args, options)).weaken
          (by have := arg.shorter; simp only [h, List.length_cons] at this; omega))
      | rest =>
        .ok ⟨([arg.value], []), rest, by have := arg.shorter; rw [h] at this; exact this⟩
termination_by ts.length
decreasing_by
  · have := value.shorter
    simp only [h, List.length_cons] at *
    omega
  · have := arg.shorter
    simp only [h, List.length_cons] at this
    omega

/-- A statement that holds no other: a return, an assignment, a call without parentheses,
or an expression. -/
def simpleStatement (lastLine : Nat) (ts : List Token) : Attempt (Parsed ts.length Stmt) :=
  let line := lineAt lastLine ts
  match ts with
  | ⟨_, .ident "return"⟩ :: ts =>
    if endsReturn (next? ts) then .ok ⟨.ret line none, ts, length_lt_succ ts⟩
    else do
      let value ← expression lastLine ts
      .ok ((value.map (.ret line ∘ some)).weaken (length_le_succ ts))
  | ⟨nameLine, .ident name⟩ :: ts =>
    if keywords.contains name then wholeExpression line (⟨nameLine, .ident name⟩ :: ts)
    else
      match ts with
      | ⟨_, .sign .assign⟩ :: ts => do
        let value ← expression lastLine ts
        .ok ((value.map (.assign line name)).weaken (by simp only [List.length_cons]; omega))
      | ts =>
        if (next? ts).any startsArgument then do
          let parts ← commandArguments lastLine false ts
          .ok ((parts.map fun (args, options) ↦ .command line name args options).weaken
            (length_le_succ ts))
        else wholeExpression line (⟨nameLine, .ident name⟩ :: ts)
  | ts => wholeExpression line ts
where
  /-- An expression as a statement. -/
  wholeExpression (line : Nat) (ts : List Token) : Attempt (Parsed ts.length Stmt) := do
    let value ← expression lastLine ts
    .ok (value.map (.expr line))

/-- A statement, and the condition that may follow it on its line. -/
def withCondition (lastLine : Nat) {n : Nat} (p : Parsed n Stmt) : Attempt (Parsed n Stmt) :=
  match h : p.rest with
  | ⟨_, .ident "if"⟩ :: rest => do
    let cond ← expression lastLine rest
    .ok ((cond.map fun e ↦ .cond p.value.line [(e, [p.value])] []).weaken
      (by have := p.shorter; simp only [h, List.length_cons] at this; omega))
  | _ => .ok p

mutual

/-- The statements up to a closing word, which is left, or up to the end of the script. -/
def block (lastLine : Nat) (ts : List Token) : Attempt (Parsed (ts.length + 1) (List Stmt)) :=
  match ts with
  | [] => .ok ⟨[], [], Nat.zero_lt_one⟩
  | t :: ts =>
    if t.tok.isNewline then do
      let stmts ← block lastLine ts
      .ok (stmts.weaken (Nat.le_succ _))
    else if (Closer.ofTok? t.tok).isSome then .ok ⟨[], t :: ts, length_lt_succ (t :: ts)⟩
    else do
      let stmt ← statement lastLine (t :: ts)
      if (next? stmt.rest).all fun tok ↦ tok.isNewline || (Closer.ofTok? tok).isSome then
        let stmts ← block lastLine stmt.rest
        .ok ((stmts.map (stmt.value :: ·)).weaken (Nat.succ_le_succ (Nat.le_of_lt stmt.shorter)))
      else .error (.afterStatement (lineAt lastLine stmt.rest) (next? stmt.rest))
termination_by 3 * ts.length + 1
decreasing_by
  · simp_wf
  · omega
  · have := stmt.shorter
    simp_wf
    simp only [List.length_cons] at this
    omega

/-- A statement. -/
def statement (lastLine : Nat) (ts : List Token) : Attempt (Parsed ts.length Stmt) :=
  match ts with
  | ⟨line, .ident "if"⟩ :: ts => do
    let cond ← expression lastLine ts
    let body ← block lastLine cond.rest
    let rest ← branches lastLine line body.rest
    .ok ((rest.map fun (arms, otherwise) ↦
      .cond line ((cond.value, body.value) :: arms) otherwise).weaken
      (by have := cond.shorter; have := body.shorter; simp only [List.length_cons]; omega))
  | ⟨line, .ident "define"⟩ :: ts => do
    let name ← symbolName lastLine ts
    let opened ← doWord lastLine name.rest
    let param ← parameter? lastLine opened.rest
    let body ← closedBody lastLine "define" param.rest
    withCondition lastLine ((body.map (.define line name.value param.value)).weaken
      (by
        have := name.shorter
        have := opened.shorter
        have := param.shorter
        simp only [List.length_cons]
        omega))
  | ⟨line, .ident "live_loop"⟩ :: ts => do
    let name ← symbolName lastLine ts
    let opened ← doWord lastLine name.rest
    let body ← closedBody lastLine "live_loop" opened.rest
    withCondition lastLine ((body.map (.liveLoop line name.value)).weaken
      (by
        have := name.shorter
        have := opened.shorter
        simp only [List.length_cons]
        omega))
  | ts => do
    let stmt ← simpleStatement lastLine ts
    withCondition lastLine stmt
termination_by 3 * ts.length
decreasing_by
  · have := cond.shorter
    simp_wf
    omega
  · have := cond.shorter
    have := body.shorter
    simp_wf
    omega
  · have := name.shorter
    have := opened.shorter
    have := param.shorter
    simp_wf
    omega
  · have := name.shorter
    have := opened.shorter
    simp_wf
    omega

/-- The further branches of a condition, after the block of its first one. -/
def branches (lastLine ifLine : Nat) (ts : List Token) :
    Attempt (Parsed ts.length (List (Expr × List Stmt) × List Stmt)) :=
  match ts with
  | [] => .error (.ifWithoutEnd ifLine)
  | t :: ts =>
    match Closer.ofTok? t.tok with
    | some .finish => .ok ⟨([], []), ts, length_lt_succ ts⟩
    | some .elseIf => do
      let cond ← expression lastLine ts
      let body ← block lastLine cond.rest
      let rest ← branches lastLine ifLine body.rest
      .ok ((rest.map fun (arms, otherwise) ↦ ((cond.value, body.value) :: arms, otherwise)).weaken
        (by have := cond.shorter; have := body.shorter; simp only [List.length_cons]; omega))
    | some .otherwise => do
      let body ← block lastLine ts
      match h : body.rest with
      | ⟨_, .ident "end"⟩ :: rest =>
        .ok ⟨([], body.value), rest,
          by have := body.shorter; simp only [h, List.length_cons] at *; omega⟩
      | rest => .error (.elseWithoutEnd (lineAt lastLine rest))
    | none => .error (.ifWithoutEnd ifLine)
termination_by 3 * ts.length
decreasing_by
  · have := cond.shorter
    simp_wf
    omega
  · have := cond.shorter
    have := body.shorter
    simp_wf
    omega
  · simp_wf
    omega

/-- The statements of a body and the word that ends it. -/
def closedBody (lastLine : Nat) (what : String) (ts : List Token) :
    Attempt (Parsed ts.length (List Stmt)) := do
  let body ← block lastLine ts
  match h : body.rest with
  | [] => .error (.bodyWithoutEnd (lineAt lastLine ts) what)
  | t :: rest =>
    match Closer.ofTok? t.tok with
    | some .finish =>
      .ok ⟨body.value, rest, by
        have := body.shorter
        simp only [h, List.length_cons] at this
        omega⟩
    | some word => .error (.wordInBody (lineAt lastLine (t :: rest)) word.text what)
    | none => .error (.bodyWithoutEnd (lineAt lastLine ts) what)
termination_by 3 * ts.length + 2
decreasing_by omega

end

/-- The statements of a script, from its tokens. -/
def parseTokens (ts : List Token) : Except ParseError (List Stmt) := do
  let lastLine := (ts.getLast?.map (·.line)).getD 0
  let stmts ← block lastLine ts
  match Closer.at? stmts.rest with
  | some word => .error (.unexpectedWord (lineAt lastLine stmts.rest) word.text)
  | none => .ok stmts.value

end StepSequencer.Script
