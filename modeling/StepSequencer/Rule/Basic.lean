import StepSequencer.Rule.Condition

/-!
# Rules

A rule decides on each step whether a slot fires. It is a decision tree: a leaf answers, a test
branches on a condition, and a rebase goes on with a shifted step. A slot fires when the answer is
truthy, that is, neither false nor nil.
-/

namespace StepSequencer

/-- What a rule answers. A bare number stands where a truth value was meant, and counts as true. -/
inductive Outcome where
  | true
  | false
  | nil
  | sentinel (value : Int64)
  deriving DecidableEq

namespace Outcome

/-- Whether the outcome makes a slot fire. -/
def isTruthy : Outcome → Bool
  | .true | .sentinel _ => Bool.true
  | .false | .nil => Bool.false

/-- The outcome of a truth value. -/
def ofBool (b : Bool) : Outcome := if b then .true else .false

end Outcome

/-- A decision tree over the step. -/
inductive Rule where
  | answer (outcome : Outcome)
  | test (condition : Condition) (taken otherwise : Rule)
  /-- The inner rule at `x - shift`. -/
  | rebase (shift : Int64) (rule : Rule)
  deriving BEq

namespace Rule

/-- The rule that never fires. -/
def never : Rule := .answer .false

/-- The rule that always fires. -/
def always : Rule := .answer .true

/-- What the rule answers at step `x`. Shifting the step wraps. -/
def outcome (x : Int64) : Rule → Outcome
  | .answer outcome => outcome
  | .test condition taken otherwise =>
    if condition.holds x then taken.outcome x else otherwise.outcome x
  | .rebase shift rule => rule.outcome (x - shift)

/-- Whether a slot with this rule fires at step `x`. -/
def fires (rule : Rule) (x : Int64) : Bool := (rule.outcome x).isTruthy

/-- The bare numbers among the answers, from left to right. -/
def sentinels : Rule → List Int64
  | .answer (.sentinel value) => [value]
  | .answer _ => []
  | .test _ taken otherwise => taken.sentinels ++ otherwise.sentinels
  | .rebase _ rule => rule.sentinels

/-- Refuses the first bad congruence: a test's condition comes before its two branches. -/
def validate : Rule → Except RuleError Unit
  | .answer _ => .ok ()
  | .test condition taken otherwise => do
    condition.validate
    taken.validate
    otherwise.validate
  | .rebase _ rule => rule.validate

end Rule

end StepSequencer
