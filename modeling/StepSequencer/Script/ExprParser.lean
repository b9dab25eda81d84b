import StepSequencer.Script.Parsed
import StepSequencer.Script.Syntax

/-!
# Parsing expressions

Six levels of left-associative operators, from the loosest to the tightest; then the operators
before an operand, of which a power binds its base more tightly than they do; then an operand with
any number of method calls and lookups after it.

Each parser comes with its measure: the number of tokens it is given, and within the same tokens how
far down the levels it stands. A token weighs eighteen, more than there are steps down the levels.
-/

namespace StepSequencer.Script

/-- The words that are no names. -/
def keywords : List String :=
  ["if", "elsif", "else", "end", "do", "define", "live_loop", "return", "true", "false", "nil"]

/-- The binary operator that a sign writes. -/
def BinaryOp.ofSign? : Sign → Option BinaryOp
  | .or => some .or
  | .and => some .and
  | .eq => some .eq
  | .ne => some .ne
  | .lt => some (.order .lt)
  | .le => some (.order .le)
  | .gt => some (.order .gt)
  | .ge => some (.order .ge)
  | .plus => some (.arith .add)
  | .minus => some (.arith .sub)
  | .times => some (.arith .mul)
  | .over => some (.arith .div)
  | .percent => some (.arith .rem)
  | .pow => some (.arith .pow)
  | .assign | .bang => none

/-- The levels of left-associative operators, the loosest first. -/
def levels : List (List BinaryOp) := [
  [.or],
  [.and],
  [.eq, .ne],
  [.order .lt, .order .le, .order .gt, .order .ge],
  [.arith .add, .arith .sub],
  [.arith .mul, .arith .div, .arith .rem]]

theorem levels_length : levels.length = 6 := rfl

/-- The operator of the level that a token writes. -/
def levelOp? (ops : List BinaryOp) : Tok → Option BinaryOp
  | .sign s => (BinaryOp.ofSign? s).filter ops.contains
  | _ => none

/-- The operator before an operand that a token writes. -/
def leadingOp? : Tok → Option UnaryOp
  | .sign .minus => some .neg
  | .sign .bang => some .not
  | .ident "not" => some .not
  | _ => none

/-- The expression that a token is by itself. -/
def literal? : Tok → Option Expr
  | .int value => some (.int value)
  | .float value => some (.float value)
  | .str value => some (.str value)
  | .symbol name => some (.symbol name)
  | .ident "true" => some (.bool true)
  | .ident "false" => some (.bool false)
  | .ident "nil" => some .nil
  | _ => none

mutual

/-- An expression of the given levels of operators, or of a tighter one. -/
def binaryExpr (lastLine : Nat) (ops : List (List BinaryOp)) (ts : List Token) :
    Attempt (Parsed ts.length Expr) :=
  match ops with
  | [] => unaryExpr lastLine ts
  | level :: tighter => do
    let lhs ← binaryExpr lastLine tighter ts
    let e ← binaryRest lastLine level tighter lhs.value lhs.rest
    .ok (e.weaken lhs.shorter)
termination_by 18 * ts.length + ops.length + 3
decreasing_by
  all_goals simp_wf
  all_goals first | omega | (have hlt := lhs.shorter; omega)

/-- What follows a left operand: operators of the level with their right operands. -/
def binaryRest (lastLine : Nat) (level : List BinaryOp) (tighter : List (List BinaryOp))
    (lhs : Expr) (ts : List Token) : Attempt (Parsed (ts.length + 1) Expr) :=
  match ts with
  | [] => .ok ⟨lhs, [], Nat.zero_lt_one⟩
  | t :: ts =>
    match levelOp? level t.tok with
    | none => .ok ⟨lhs, t :: ts, length_lt_succ (t :: ts)⟩
    | some op => do
      let rhs ← binaryExpr lastLine tighter ts
      let e ← binaryRest lastLine level tighter (.binary op lhs rhs.value) rhs.rest
      .ok (e.weaken (by have := rhs.shorter; simp only [List.length_cons]; omega))
termination_by 18 * ts.length + tighter.length
decreasing_by
  all_goals simp_wf
  all_goals first | omega | (have hlt := rhs.shorter; omega)

/-- An operand with the operators before it, or a power. -/
def unaryExpr (lastLine : Nat) (ts : List Token) : Attempt (Parsed ts.length Expr) :=
  match (next? ts).bind leadingOp?, ts with
  | some op, _ :: ts => do
    let e ← unaryExpr lastLine ts
    .ok ((e.map (.unary op)).weaken (length_le_succ ts))
  | _, ts => do
    let base ← suffixed lastLine ts
    match h : base.rest with
    | ⟨_, .sign .pow⟩ :: rest => do
      let exponent ← unaryExpr lastLine rest
      .ok ((exponent.map (.binary (.arith .pow) base.value)).weaken
        (by have := base.shorter; simp only [h, List.length_cons] at this; omega))
    | _ => .ok base
termination_by 18 * ts.length + 2
decreasing_by
  all_goals simp_wf
  all_goals first
    | omega
    | (have hlt := base.shorter; simp only [h, List.length_cons] at hlt; omega)

/-- An operand and what is applied to it. -/
def suffixed (lastLine : Nat) (ts : List Token) : Attempt (Parsed ts.length Expr) := do
  let operand ← primary lastLine ts
  let e ← suffixes lastLine operand.value operand.rest
  .ok (e.weaken operand.shorter)
termination_by 18 * ts.length + 1
decreasing_by
  all_goals first | omega | (have hlt := operand.shorter; omega)

/-- What is applied to a receiver: method calls and lookups. -/
def suffixes (lastLine : Nat) (receiver : Expr) (ts : List Token) :
    Attempt (Parsed (ts.length + 1) Expr) :=
  match ts with
  | ⟨_, .dot⟩ :: ⟨_, .ident name⟩ :: ⟨_, .openParen⟩ :: ts => do
    let args ← arguments lastLine ts
    let e ← suffixes lastLine (.method receiver name args.value) args.rest
    .ok (e.weaken (by have := args.shorter; simp only [List.length_cons]; omega))
  | ⟨_, .dot⟩ :: ⟨_, .ident name⟩ :: ts => do
    let e ← suffixes lastLine (.method receiver name []) ts
    .ok (e.weaken (by simp only [List.length_cons]; omega))
  | ⟨_, .dot⟩ :: ts => .error (.expected (lineAt lastLine (ts.drop 1)) .methodName (next? ts))
  | ⟨_, .openBracket⟩ :: ts => do
    let key ← binaryExpr lastLine levels ts
    match h : key.rest with
    | ⟨_, .closeBracket⟩ :: rest => do
      let e ← suffixes lastLine (.index receiver key.value) rest
      .ok (e.weaken (by have := key.shorter; simp only [h, List.length_cons] at *; omega))
    | rest => .error (.expected (lineAt lastLine rest) (.mark "]") (next? rest))
  | ts => .ok ⟨receiver, ts, length_lt_succ ts⟩
termination_by 18 * ts.length
decreasing_by
  all_goals simp_wf
  all_goals have hlevels := levels_length
  all_goals first
    | omega
    | (have hlt := args.shorter; omega)
    | (have hlt := key.shorter; simp only [h, List.length_cons] at hlt; omega)

/-- Arguments, after their opening parenthesis. -/
def arguments (lastLine : Nat) (ts : List Token) : Attempt (Parsed ts.length (List Expr)) :=
  match ts with
  | ⟨_, .closeParen⟩ :: ts => .ok ⟨[], ts, length_lt_succ ts⟩
  | ts => someArguments lastLine ts
termination_by 18 * ts.length + 11
decreasing_by omega

/-- One argument and those after it. -/
def someArguments (lastLine : Nat) (ts : List Token) : Attempt (Parsed ts.length (List Expr)) := do
  let arg ← binaryExpr lastLine levels ts
  match h : arg.rest with
  | ⟨_, .comma⟩ :: rest => do
    let args ← someArguments lastLine rest
    .ok ((args.map (arg.value :: ·)).weaken
      (by have := arg.shorter; simp only [h, List.length_cons] at this; omega))
  | ⟨_, .closeParen⟩ :: rest =>
    .ok ⟨[arg.value], rest, by have := arg.shorter; simp only [h, List.length_cons] at this; omega⟩
  | rest => .error (.expected (lineAt lastLine (rest.drop 1)) .commaOrClose (next? rest))
termination_by 18 * ts.length + 10
decreasing_by
  · simp [levels]
  · have := arg.shorter
    simp only [h, List.length_cons] at this
    omega

/-- A literal, a name, a call, or an expression in parentheses. -/
def primary (lastLine : Nat) (ts : List Token) : Attempt (Parsed ts.length Expr) :=
  match ts with
  | [] => .error (.expected lastLine .expression none)
  | ⟨line, tok⟩ :: ts =>
    match literal? tok, tok with
    | some e, _ => .ok ⟨e, ts, length_lt_succ ts⟩
    | none, .openParen => do
      let inner ← binaryExpr lastLine levels ts
      match h : inner.rest with
      | ⟨_, .closeParen⟩ :: rest =>
        .ok ⟨inner.value, rest,
          by have := inner.shorter; simp only [h, List.length_cons] at *; omega⟩
      | rest => .error (.expected (lineAt lastLine rest) (.mark ")") (next? rest))
    | none, .ident name =>
      if keywords.contains name then .error (.unexpectedWord line name)
      else
        match ts with
        | ⟨_, .openParen⟩ :: ts => do
          let args ← arguments lastLine ts
          .ok ((args.map (.call name)).weaken (by simp only [List.length_cons]; omega))
        | ts => .ok ⟨.var name, ts, length_lt_succ ts⟩
    | none, tok => .error (.expected line .expression (some tok))
termination_by 18 * ts.length
decreasing_by
  all_goals simp_wf
  all_goals have hlevels := levels_length
  all_goals omega

end

/-- An expression. -/
def expression (lastLine : Nat) (ts : List Token) : Attempt (Parsed ts.length Expr) :=
  binaryExpr lastLine levels ts

end StepSequencer.Script
