import StepSequencer.Rule.Basic
import StepSequencer.Rule.Simplify
import StepSequencer.Script.Term

/-!
# From a function body to a rule

A rule is written as a function of the step: nested conditions, returns, and reassignments of the
parameter by a shift. `block` turns the statements of the body into a rule. What follows a condition
runs after each of its branches, so it becomes part of each.

Everything but false and nil counts as true.
-/

namespace StepSequencer.Script

/-- Why a function body is no rule. -/
inductive BodyError where
  | unknownVariable (name : String)
  | unsupportedCondition (e : Expr)
  | unsupportedMethod (name : String)
  | notArithmetic (op : BinaryOp)
  | notNumeric (e : Expr)
  | notAShift (line : Nat) (name : String)
  | localVariable (line : Nat) (name : String)
  | unsupportedStatement (line : Nat)
  | atLine (line : Nat) (cause : BodyError)

/-- The wording of the error. -/
def BodyError.message : BodyError → String
  | .unknownVariable name => "unknown variable `" ++ name ++ "`"
  | .unsupportedCondition e => "unsupported condition " ++ e.shown
  | .unsupportedMethod name => "unsupported method `" ++ name ++ "`"
  | .notArithmetic op => "`" ++ op.symbol ++ "` is not arithmetic"
  | .notNumeric e => "not a numeric expression: " ++ e.shown
  | .notAShift line name =>
    "line " ++ toString line ++ ": `" ++ name ++ "` can only be shifted by a constant"
  | .localVariable line name =>
    "line " ++ toString line ++ ": local variable `" ++ name ++ "` is not supported"
  | .unsupportedStatement line =>
    "line " ++ toString line ++ ": unsupported statement in predicate"
  | .atLine line cause => "line " ++ toString line ++ ": " ++ cause.message

namespace Expr

/-- Whether the expression is written as a value. -/
def isLiteral : Expr → Bool
  | .bool _ | .nil | .str _ | .symbol _ | .int _ | .float _ => true
  | _ => false

/-- Whether two expressions are written as the same value. -/
def sameLiteral : Expr → Expr → Bool
  | .bool a, .bool b => a == b
  | .nil, .nil => true
  | .str a, .str b | .symbol a, .symbol b => a == b
  | .int a, .int b => a == b
  | .float a, .float b => a == b
  | _, _ => false

/-- Whether the expression can only be true or false. -/
def isBoolean : Expr → Bool
  | .bool _ | .unary .not _ => true
  | .binary (.arith _) .. => false
  | .binary .. => true
  | .method _ name _ => name.endsWith "?"
  | _ => false

end Expr

/-! ### Weights of statements -/

mutual

/-- How many statements and branches a statement holds, itself included. -/
def Stmt.weight : Stmt → Nat
  | .cond _ arms otherwise => armsWeight arms + blockWeight otherwise + 1
  | _ => 1

/-- The weight of a block. -/
def blockWeight : List Stmt → Nat
  | [] => 0
  | s :: ss => s.weight + blockWeight ss

/-- The weight of the branches of a condition. -/
def armsWeight : List (Expr × List Stmt) → Nat
  | [] => 0
  | (_, body) :: arms => blockWeight body + armsWeight arms + 1

end

theorem blockWeight_append (xs ys : List Stmt) :
    blockWeight (xs ++ ys) = blockWeight xs + blockWeight ys := by
  induction xs with
  | nil => simp [blockWeight]
  | cons x xs ih => simp [blockWeight, ih, Nat.add_assoc]

/-! ### Conditions and values -/

namespace Body

variable (param : Option String)

/-- The arithmetic that an expression is, with constants folded. -/
def stepExpr : Expr → Except BodyError StepExpr
  | .int value => .ok (.const (.int value))
  | .float value => .ok (.const (.float value))
  | .var name =>
    if param = some name then .ok .step else .error (.notNumeric (.var name))
  | .unary .neg operand => do
    let e ← stepExpr operand
    .ok (StepExpr.neg e).folded
  | .binary (.arith op) lhs rhs => do
    let l ← stepExpr lhs
    let r ← stepExpr rhs
    .ok (StepExpr.binary op l r).folded
  | .binary op _ _ => .error (.notArithmetic op)
  | e => .error (.notNumeric e)

/-- The result of an operation that is taken for granted. -/
def granted (operation : Overflow) : Option Int64 → Except (Halt BodyError) Int64
  | some n => .ok n
  | none => .error (.aborted operation)

/-- The term that an expression is, if it is one. -/
def term? (e : Expr) : Except (Halt BodyError) (Option Term) :=
  match Term.ofExpr param e with
  | .ok t => .ok (some t)
  | .error (.refused .notReduced) => .ok none
  | .error (.aborted cause) => .error (.aborted cause)

/-- The arithmetic that an expression is, where something is made of it. -/
def arithmetic (e : Expr) : Except (Halt BodyError) StepExpr :=
  (stepExpr param e).mapError .refused

/-- The equality of two expressions, given what each is as a condition. A truth value equals
nothing but itself. -/
def equalityOf (lhs rhs : Expr) (l r : Except (Halt BodyError) Condition) :
    Except (Halt BodyError) Condition := do
  let a ← term? param lhs
  let b ← term? param rhs
  match a.bind fun a ↦ b.bind a.equality? with
  | some c => .ok c
  | none =>
    if lhs.isBoolean || rhs.isBoolean then do
      let l ← l
      let r ← r
      .ok (if lhs.isBoolean && rhs.isBoolean then l.iff r else .const false)
    else
      match stepExpr param lhs, stepExpr param rhs with
      | .ok a, .ok b => .ok (.comparison .eq a b)
      | .error cause, _ | _, .error cause =>
        if lhs.isLiteral && rhs.isLiteral then .ok (.const (lhs.sameLiteral rhs))
        else .error (.refused cause)

/-- The ordering of two expressions. -/
def ordering (op : OrderOp) (lhs rhs : Expr) : Except (Halt BodyError) Condition := do
  let a ← term? param lhs
  let b ← term? param rhs
  match a.bind fun a ↦ b.bind (a.ordering? op) with
  | some c => .ok c
  | none => do
    let l ← arithmetic param lhs
    let r ← arithmetic param rhs
    .ok (.comparison (.order op) l r)

/-- A property of the step plus an offset, as a congruence or a bound. -/
def shiftedProperty? (offset : Int64) : String → Except (Halt BodyError) (Option Condition)
  | "even?" => .ok (some (.congruent offset 2))
  | "odd?" => (granted .addition (Word.add? offset 1)).map (some <| .congruent · 2)
  | "zero?" => (granted .negation (Word.neg? offset)).map (some <| .equals ·)
  | "positive?" => (granted .negation (Word.neg? offset)).map (some <| .greaterThan ·)
  | "negative?" => (granted .negation (Word.neg? offset)).map (some <| .lessThan ·)
  | _ => .ok none

/-- A property of what a term stands for, where that is the step plus an offset. -/
def termProperty? (name : String) : Option Term → Except (Halt BodyError) (Option Condition)
  | some (.step offset) => shiftedProperty? offset name
  | _ => .ok none

/-- A property of a number, as a comparison. -/
def property? (e : StepExpr) : String → Option Condition
  | "even?" => some (.comparison .eq (.binary .rem e (.const (.int 2))) (.const (.int 0)))
  | "odd?" => some (.comparison .eq (.binary .rem e (.const (.int 2))) (.const (.int 1)))
  | "zero?" => some (.comparison .eq e (.const (.int 0)))
  | "positive?" => some (.comparison (.order .gt) e (.const (.int 0)))
  | "negative?" => some (.comparison (.order .lt) e (.const (.int 0)))
  | _ => none

/-- A property of an expression, asked by a method without arguments. -/
def property (receiver : Expr) (name : String) : Except (Halt BodyError) Condition := do
  let t ← term? param receiver
  match ← termProperty? name t with
  | some c => .ok c
  | none => do
    let e ← arithmetic param receiver
    match property? e name with
    | some c => .ok c
    | none => .error (.refused (.unsupportedMethod name))

/-- Whether arithmetic counts as true: every number does, but a whole division by zero
has no value. -/
def hasValue (e : StepExpr) : Bool :=
  match e with
  | .const _ => true
  | e => e.usesStep

/-- When the expression counts as true. -/
def condition : Expr → Except (Halt BodyError) Condition
  | .bool value => .ok (.const value)
  | .nil => .ok (.const false)
  | .int _ | .float _ | .str _ | .symbol _ => .ok (.const true)
  | .var name =>
    if param = some name then .ok (.const true) else .error (.refused (.unknownVariable name))
  | .unary .not operand => do
    let c ← condition operand
    .ok c.negate
  | .binary .or lhs rhs => do
    let l ← condition lhs
    let r ← condition rhs
    .ok (l.either r)
  | .binary .and lhs rhs => do
    let l ← condition lhs
    let r ← condition rhs
    .ok (l.both r)
  | .binary .eq lhs rhs => equalityOf param lhs rhs (condition lhs) (condition rhs)
  | .binary .ne lhs rhs => do
    let c ← equalityOf param lhs rhs (condition lhs) (condition rhs)
    .ok c.negate
  | .binary (.order op) lhs rhs => ordering param op lhs rhs
  | .method receiver name [] => property param receiver name
  | .binary (.arith op) lhs rhs => do
    let e ← arithmetic param (.binary (.arith op) lhs rhs)
    .ok (.const (hasValue e))
  | .unary .neg operand => do
    let e ← arithmetic param (.unary .neg operand)
    .ok (.const (hasValue e))
  | e => .error (.refused (.unsupportedCondition e))

/-- When two expressions are equal. -/
def equality (lhs rhs : Expr) : Except (Halt BodyError) Condition :=
  equalityOf param lhs rhs (condition param lhs) (condition param rhs)

/-- The rule that branches on a condition, or one of its branches when the condition is constant. -/
def branch (c : Condition) (taken otherwise : Rule) : Rule :=
  match c with
  | .const true => taken
  | .const false => otherwise
  | c => .test c taken otherwise

/-- The rule that answers with the value of the expression. -/
def value (e : Expr) : Except (Halt BodyError) Rule :=
  match e with
  | .bool b => .ok (.answer (.ofBool b))
  | .nil => .ok (.answer .nil)
  | e => do
    match ← term? param e with
    | some (.const n) => .ok (.answer (.sentinel n))
    | _ =>
      let c ← condition param e
      .ok (branch c (.answer .true) (.answer .false))

/-! ### Statements -/

mutual

/-- The rule that the statements of a function body make up. -/
def block (stmts : List Stmt) : Except (Halt BodyError) Rule :=
  match stmts with
  | [] => .ok (.answer .nil)
  | .ret _ none :: _ => .ok (.answer .nil)
  | .ret line (some e) :: _ => (value param e).mapError (Halt.map (.atLine line))
  | .cond line arms otherwise :: rest => do
    let rule ← block (otherwise ++ rest)
    branches line arms rest rule
  | .assign line name value :: rest =>
    if param = some name then do
      match ← term? param value with
      | some (.step offset) =>
        let shift ← granted .negation (Word.neg? offset)
        let rule ← block rest
        .ok (.rebase shift rule)
      | _ => .error (.refused (.notAShift line name))
    else .error (.refused (.localVariable line name))
  | [.expr line e] => (value param e).mapError (Halt.map (.atLine line))
  | [.command ..] => .ok (.answer .nil)
  | .expr line _ :: next :: rest | .command line _ _ _ :: next :: rest =>
    (block (next :: rest)).mapError (Halt.map (.atLine line))
  | .define line .. :: _ | .liveLoop line .. :: _ => .error (.refused (.unsupportedStatement line))
termination_by blockWeight stmts
decreasing_by
  all_goals simp only [blockWeight, blockWeight_append, Stmt.weight]
  all_goals omega

/-- The rule of the branches of a condition, the last one first; `rule` is that of the case in which
none is taken, and `rest` are the statements after the condition. -/
def branches (line : Nat) (arms : List (Expr × List Stmt)) (rest : List Stmt) (rule : Rule) :
    Except (Halt BodyError) Rule :=
  match arms with
  | [] => .ok rule
  | (e, body) :: arms => do
    let rule ← branches line arms rest rule
    let taken ← block (body ++ rest)
    let c ← (condition param e).mapError (Halt.map (.atLine line))
    .ok (branch c taken rule)
termination_by armsWeight arms + blockWeight rest
decreasing_by
  all_goals simp only [armsWeight, blockWeight_append]
  all_goals omega

end

end Body

end StepSequencer.Script
