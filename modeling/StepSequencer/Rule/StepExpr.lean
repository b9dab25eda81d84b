import StepSequencer.Rule.Num

/-!
# Arithmetic on the step

An expression over the current step. Evaluating it at a step gives a number, or nothing where a
whole number would be divided by zero.
-/

namespace StepSequencer

/-- An arithmetic expression in the step. -/
inductive StepExpr where
  | step
  | const (value : Num)
  | neg (operand : StepExpr)
  | binary (op : ArithOp) (lhs rhs : StepExpr)
  deriving BEq

namespace StepExpr

/-- The value at step `x`. -/
def eval (x : Int64) : StepExpr → Option Num
  | .step => some (.int x)
  | .const value => some value
  | .neg operand => (operand.eval x).map Num.neg
  | .binary op lhs rhs => (lhs.eval x).bind fun a ↦ (rhs.eval x).bind fun b ↦ op.apply a b

/-- Whether the step occurs in the expression. -/
def usesStep : StepExpr → Bool
  | .step => true
  | .const _ => false
  | .neg operand => operand.usesStep
  | .binary _ lhs rhs => lhs.usesStep || rhs.usesStep

end StepExpr

end StepSequencer
