import StepSequencer.Rule.StepExpr

/-!
# Conditions on the step

A condition is a test of the step. Most are congruences and bounds; `compare` keeps whatever
arithmetic does not reduce to one of those. The step is a word, and adding an offset to it wraps.
-/

namespace StepSequencer

/-- A test of the step `x`. -/
inductive Condition where
  | const (value : Bool)
  /-- The modulus divides `x + offset`. -/
  | congruent (offset modulus : Int64)
  | equals (bound : Int64)
  | lessThan (bound : Int64)
  | atMost (bound : Int64)
  | greaterThan (bound : Int64)
  | atLeast (bound : Int64)
  /-- Two expressions compared; false where one of them has no value. -/
  | compare (op : CmpOp) (lhs rhs : StepExpr)
  | any (members : List Condition)
  | all (members : List Condition)
  | not (operand : Condition)
  deriving BEq

/-- What makes a rule unusable. -/
inductive RuleError where
  /-- A congruence needs a positive modulus. -/
  | modulusNotPositive (offset modulus : Int64)
  deriving DecidableEq

/-- The wording of the error. -/
def RuleError.message : RuleError → String
  | .modulusNotPositive offset modulus =>
    "modulus must be positive in (" ++ toString offset.toInt ++ ", " ++ toString modulus.toInt
      ++ ")"

namespace Condition

mutual

/-- Whether the condition holds at step `x`. -/
def holds (x : Int64) : Condition → Bool
  | .const value => value
  | .congruent offset modulus => 0 < modulus && (x + offset).toInt % modulus.toInt == 0
  | .equals bound => x == bound
  | .lessThan bound => x < bound
  | .atMost bound => x ≤ bound
  | .greaterThan bound => bound < x
  | .atLeast bound => bound ≤ x
  | .compare op lhs rhs =>
    match lhs.eval x, rhs.eval x with
    | some a, some b => op.holds a b
    | _, _ => false
  | .any members => someHolds x members
  | .all members => eachHolds x members
  | .not operand => !operand.holds x

/-- Whether some member holds at step `x`. -/
def someHolds (x : Int64) : List Condition → Bool
  | [] => false
  | c :: cs => c.holds x || someHolds x cs

/-- Whether each member holds at step `x`. -/
def eachHolds (x : Int64) : List Condition → Bool
  | [] => true
  | c :: cs => c.holds x && eachHolds x cs

end

theorem someHolds_eq_any (x : Int64) (cs : List Condition) :
    someHolds x cs = cs.any (holds x) := by
  induction cs with
  | nil => rfl
  | cons c cs ih => simp [someHolds, ih]

theorem eachHolds_eq_all (x : Int64) (cs : List Condition) :
    eachHolds x cs = cs.all (holds x) := by
  induction cs with
  | nil => rfl
  | cons c cs ih => simp [eachHolds, ih]

mutual

/-- Refuses the first congruence, from left to right, whose modulus is not positive. -/
def validate : Condition → Except RuleError Unit
  | .congruent offset modulus =>
    if modulus ≤ 0 then .error (.modulusNotPositive offset modulus) else .ok ()
  | .any members | .all members => validateEach members
  | .not operand => operand.validate
  | _ => .ok ()

/-- Refuses the first bad congruence among the members. -/
def validateEach : List Condition → Except RuleError Unit
  | [] => .ok ()
  | c :: cs => do
    c.validate
    validateEach cs

end

/-- The disjunction of congruences, in order; a single one stands by itself. -/
def anyCongruent : List (Int64 × Int64) → Condition
  | [] => .const false
  | [(offset, modulus)] => .congruent offset modulus
  | terms => .any (terms.map fun (offset, modulus) ↦ .congruent offset modulus)

end Condition

end StepSequencer
