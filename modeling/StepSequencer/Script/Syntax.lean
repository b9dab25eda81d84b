import StepSequencer.Rule.Num
import StepSequencer.Script.Token

/-!
# Syntax trees of scripts

Expressions and statements of the scripting language. A statement knows the line it starts on.
`Expr.shown` is how a message quotes an expression.
-/

namespace StepSequencer.Script

/-- An operator before its operand. -/
inductive UnaryOp where
  | neg
  | not
  deriving DecidableEq

/-- An operator between its operands. -/
inductive BinaryOp where
  | or
  | and
  | eq
  | ne
  | order (op : OrderOp)
  | arith (op : ArithOp)
  deriving DecidableEq

/-- The written form of the operator. -/
def UnaryOp.symbol : UnaryOp → String
  | .neg => "-"
  | .not => "!"

/-- The written form of the operator. -/
def BinaryOp.symbol : BinaryOp → String
  | .or => "||"
  | .and => "&&"
  | .eq => "=="
  | .ne => "!="
  | .order op => op.symbol
  | .arith op => op.symbol

/-- An expression. -/
inductive Expr where
  | int (value : Int64)
  | float (value : Float)
  | bool (value : Bool)
  | nil
  | str (value : String)
  | symbol (name : String)
  | var (name : String)
  | unary (op : UnaryOp) (operand : Expr)
  | binary (op : BinaryOp) (lhs rhs : Expr)
  | call (name : String) (args : List Expr)
  | method (receiver : Expr) (name : String) (args : List Expr)
  | index (receiver key : Expr)
  deriving BEq

/-- A statement. -/
inductive Stmt where
  | assign (line : Nat) (name : String) (value : Expr)
  /-- A call without parentheses. -/
  | command (line : Nat) (name : String) (args : List Expr) (options : List (String × Expr))
  | define (line : Nat) (name : String) (param : Option String) (body : List Stmt)
  | liveLoop (line : Nat) (name : String) (body : List Stmt)
  /-- Conditions with what each runs; no `otherwise` is the same as an empty one. -/
  | cond (line : Nat) (arms : List (Expr × List Stmt)) (otherwise : List Stmt)
  | ret (line : Nat) (value : Option Expr)
  | expr (line : Nat) (value : Expr)
  deriving BEq

/-- The line the statement starts on. -/
def Stmt.line : Stmt → Nat
  | .assign line .. | .command line .. | .define line .. | .liveLoop line .. | .cond line ..
  | .ret line .. | .expr line .. => line

/-! ### Expressions in messages -/

/-- Named parts between braces. -/
def shownRecord (name : String) (parts : List (String × String)) : String :=
  name ++ " \x7b " ++ ", ".intercalate (parts.map fun (key, part) ↦ key ++ ": " ++ part) ++ " \x7d"

namespace Expr

mutual

/-- The expression as a message quotes it. -/
def shown : Expr → String
  | .int value => "Int(" ++ toString value.toInt ++ ")"
  | .float value => "Float(" ++ NumberLayout.precise.double value ++ ")"
  | .bool value => "Bool(" ++ toString value ++ ")"
  | .nil => "Nil"
  | .str value => "Str(" ++ Quoted.quoted value ++ ")"
  | .symbol name => "Symbol(" ++ Quoted.quoted name ++ ")"
  | .var name => "Var(" ++ Quoted.quoted name ++ ")"
  | .unary op operand =>
    shownRecord "Unary" [("op", Quoted.quoted op.symbol), ("expr", operand.shown)]
  | .binary op lhs rhs =>
    shownRecord "Binary" [("op", Quoted.quoted op.symbol), ("lhs", lhs.shown), ("rhs", rhs.shown)]
  | .call name args =>
    shownRecord "Call" [("name", Quoted.quoted name), ("args", "[" ++ shownList args ++ "]")]
  | .method receiver name args =>
    shownRecord "Method" [("recv", receiver.shown), ("name", Quoted.quoted name),
      ("args", "[" ++ shownList args ++ "]")]
  | .index receiver key =>
    shownRecord "Index" [("recv", receiver.shown), ("key", key.shown)]

/-- Expressions with commas between them. -/
def shownList : List Expr → String
  | [] => ""
  | [e] => e.shown
  | e :: f :: es => e.shown ++ ", " ++ shownList (f :: es)

end

end Expr

end StepSequencer.Script
