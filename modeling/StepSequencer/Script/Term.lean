import StepSequencer.Number.Overflow
import StepSequencer.Number.Word
import StepSequencer.Rule.Condition
import StepSequencer.Script.Syntax

/-!
# Expressions that are shifted steps

Most arithmetic in a rule is a constant, the step shifted by a constant, or the residue of a shifted
step. A `Term` is one of these three. Comparing two terms gives a congruence or a bound instead of
general arithmetic, unless a word is too narrow for it.
-/

namespace StepSequencer.Script

/-- A whole number as it depends on the step. -/
inductive Term where
  | const (value : Int64)
  /-- The step plus an offset. -/
  | step (offset : Int64)
  /-- The residue of the step plus an offset, for a positive modulus. -/
  | residue (offset modulus : Int64)
  deriving DecidableEq

/-- Why an expression is no term. -/
inductive TermError where
  | notReduced
  deriving DecidableEq

namespace Term

/-- The term made from a word, where there is one. -/
def exact (make : Int64 → Term) : Option Int64 → Except (Halt TermError) Term
  | some n => .ok (make n)
  | none => .error (.refused .notReduced)

/-- The operator on two terms, where the result is a term again. The remainder of two constants is
what the quotient leaves; the product of divisor and quotient is taken for granted. -/
def combine : ArithOp → Term → Term → Except (Halt TermError) Term
  | .add, .const a, .const b => exact .const (Word.add? a b)
  | .add, .step c, .const k | .add, .const k, .step c => exact .step (Word.add? c k)
  | .sub, .const a, .const b => exact .const (Word.sub? a b)
  | .sub, .step c, .const k => exact .step (Word.sub? c k)
  | .mul, .const a, .const b => exact .const (Word.mul? a b)
  | .div, .const a, .const b => exact .const (Word.floorDiv? a b)
  | .rem, .const a, .const b =>
    match Word.floorDiv? a b, Word.floorMod? a b with
    | none, _ => .error (.refused .notReduced)
    | some _, none => .error (.aborted .multiplication)
    | some _, some r => .ok (.const r)
  | .rem, .step c, .const m =>
    if 0 < m then .ok (.residue c m) else .error (.refused .notReduced)
  | .pow, .const a, .const b =>
    if 0 ≤ b.toInt ∧ b.toInt < 2 ^ 32 then exact .const (Word.pow? a b.toInt.toNat)
    else .error (.refused .notReduced)
  | _, _, _ => .error (.refused .notReduced)

/-- The term that an expression is, if it is one. `param` names the step. -/
def ofExpr (param : Option String) : Expr → Except (Halt TermError) Term
  | .int value => .ok (.const value)
  | .var name => if param = some name then .ok (.step 0) else .error (.refused .notReduced)
  | .unary .neg operand => do
    match ← ofExpr param operand with
    | .const value => exact .const (Word.neg? value)
    | _ => .error (.refused .notReduced)
  | .binary op lhs rhs => do
    let l ← ofExpr param lhs
    let r ← ofExpr param rhs
    match op with
    | .arith op => combine op l r
    | _ => .error (.refused .notReduced)
  | _ => .error (.refused .notReduced)

/-- The equality of a term that is no constant with a constant. -/
def equalsConst? : Term → Int64 → Option Condition
  | .const a, k => some (.const (a == k))
  | .step c, k => (Word.sub? k c).map .equals
  | .residue offset modulus, k =>
    if 0 ≤ k && k < modulus then (Word.sub? offset k).map (.congruent · modulus)
    else some (.const false)

/-- The equality of two terms, where it is a simple condition. -/
def equality? : Term → Term → Option Condition
  | l, .const k => l.equalsConst? k
  | .const k, r => r.equalsConst? k
  | .step a, .step b => some (.const (a == b))
  | _, _ => none

/-- Whether the ordering holds between two words. -/
def holds (op : OrderOp) (a b : Int64) : Bool := op.accepts (compare a b)

/-- The step against a bound. -/
def bound (op : OrderOp) (n : Int64) : Condition :=
  match op with
  | .lt => .lessThan n
  | .le => .atMost n
  | .gt => .greaterThan n
  | .ge => .atLeast n

/-- The ordering with its sides exchanged. -/
def flip : OrderOp → OrderOp
  | .lt => .gt
  | .le => .ge
  | .gt => .lt
  | .ge => .le

/-- The ordering of two terms, where it is a simple condition. -/
def ordering? (op : OrderOp) : Term → Term → Option Condition
  | .const a, .const b | .step a, .step b => some (.const (holds op a b))
  | .step c, .const k => (Word.sub? k c).map (bound op)
  | .const k, .step c => (Word.sub? k c).map (bound (flip op))
  | _, _ => none

end Term

end StepSequencer.Script
