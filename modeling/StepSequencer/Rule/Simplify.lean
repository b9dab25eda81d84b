import StepSequencer.Rule.Condition

/-!
# Building simplified conditions

Connectives that keep a condition in its simplest form. Constants vanish, nested disjunctions and
conjunctions of one kind become flat, a double negation disappears, and a comparison that does not
depend on the step becomes a constant.
-/

namespace StepSequencer

/-- The expression, or its value as a constant when it has one that does not depend on the step. -/
def StepExpr.folded (e : StepExpr) : StepExpr :=
  if e.usesStep then e
  else match e.eval 0 with
    | some value => .const value
    | none => e

/-! ### Connectives with members -/

/-- The connectives that have members. -/
inductive Connective where
  | any
  | all

namespace Connective

/-- The truth value of a member that settles the whole. -/
def settling : Connective → Bool
  | .any => true
  | .all => false

/-- The condition with the members. -/
def condition : Connective → List Condition → Condition
  | .any => .any
  | .all => .all

/-- What a condition adds to the members, unless it settles the whole. -/
def members? : Connective → Condition → Option (List Condition)
  | .any, .any inner | .all, .all inner => some inner
  | k, .const value => if value = k.settling then none else some []
  | _, c => some [c]

/-- The condition of members among which there is no constant. -/
def build (k : Connective) : List Condition → Condition
  | [] => .const !k.settling
  | [c] => c
  | cs => k.condition cs

/-- Two conditions under the connective. -/
def join (k : Connective) (a b : Condition) : Condition :=
  match k.members? a, k.members? b with
  | some first, some second => k.build (first ++ second)
  | _, _ => .const k.settling

end Connective

namespace Condition

/-- The disjunction. -/
def either : Condition → Condition → Condition := Connective.any.join

/-- The conjunction. -/
def both : Condition → Condition → Condition := Connective.all.join

/-- The negation. -/
def negate : Condition → Condition
  | .const value => .const !value
  | .not operand => operand
  | c => .not c

/-- The equivalence. -/
def iff : Condition → Condition → Condition
  | .const p, .const q => .const (p == q)
  | .const true, c | c, .const true => c
  | .const false, c | c, .const false => c.negate
  | a, b => either (both a b) (both a.negate b.negate)

/-- The comparison of two expressions. -/
def comparison (op : CmpOp) (lhs rhs : StepExpr) : Condition :=
  if lhs.usesStep || rhs.usesStep then .compare op lhs rhs
  else match lhs.eval 0, rhs.eval 0 with
    | some a, some b => .const (op.holds a b)
    | _, _ => .const false

end Condition

end StepSequencer
