import StepSequencer.Json.Decode
import StepSequencer.Rule.Basic

/-!
# Rules as JSON

The stored form of numbers, expressions, conditions and rules. Each type has an encoder `toJson` and
a decoder `ofJson?`, which takes the room left for nesting.
-/

namespace StepSequencer

open JsonValue (tagged record text)

/-! ### Numbers and operators -/

/-- The stored form of a number. -/
def Num.toJson : Num → JsonValue
  | .int n => .ofWord n
  | .float x => .ofDouble x

/-- A whole number that fits a word, or else a float. -/
def Num.ofJson? (v : JsonValue) : Option Num :=
  match v.toNumber? with
  | some (.whole n) =>
    match Word.ofInt? n with
    | some w => some (.int w)
    | none => some (.float n.toNat.toUInt64.toFloat)
  | some (.real x) => some (.float x)
  | none => none

/-- The stored name of the operator. -/
def ArithOp.key : ArithOp → String
  | .add => "add"
  | .sub => "sub"
  | .mul => "mul"
  | .div => "div"
  | .rem => "rem"
  | .pow => "pow"

/-- The operator with a stored name. -/
def ArithOp.ofKey? (key : String) : Option ArithOp :=
  [ArithOp.add, .sub, .mul, .div, .rem, .pow].find? (·.key == key)

/-- The stored name of the operator. -/
def CmpOp.key : CmpOp → String
  | .eq => "eq"
  | .order .lt => "lt"
  | .order .le => "le"
  | .order .gt => "gt"
  | .order .ge => "ge"

/-- The operator with a stored name. -/
def CmpOp.ofKey? (key : String) : Option CmpOp := CmpOp.all.find? (·.key == key)

/-! ### Expressions -/

namespace StepExpr

/-- The stored form of an expression. -/
def toJson : StepExpr → JsonValue
  | .step => text "step"
  | .const value => tagged "const" value.toJson
  | .neg operand => tagged "neg" operand.toJson
  | .binary op lhs rhs =>
    tagged "binary" (record [("op", text op.key), ("lhs", lhs.toJson), ("rhs", rhs.toJson)])

mutual

/-- The expression with a stored form. -/
def ofJson? : Nat → JsonValue → Option StepExpr
  | _, .string (some "step") => some .step
  | room + 1, .object [(some key, v)] =>
    match key with
    | "step" => match v with
      | .null => some .step
      | _ => none
    | "const" => (Num.ofJson? v).map .const
    | "neg" => (ofJson? room v).map .neg
    | "binary" => binaryOfJson? room v
    | _ => none
  | _, _ => none

/-- The operation with a stored form. -/
def binaryOfJson? : Nat → JsonValue → Option StepExpr
  | 0, _ => none
  | room + 1, v =>
    match v.fields? ["op", "lhs", "rhs"] with
    | some [some op, some lhs, some rhs] => do
      let op ← (op.unitVariant? room).bind ArithOp.ofKey?
      let lhs ← ofJson? room lhs
      let rhs ← ofJson? room rhs
      some (.binary op lhs rhs)
    | _ => none

end

end StepExpr

/-! ### Conditions -/

namespace Condition

mutual

/-- The stored form of a condition. -/
def toJson : Condition → JsonValue
  | .const value => tagged "const" (.bool value)
  | .congruent offset modulus =>
    tagged "congruent" (record [("offset", .ofWord offset), ("modulus", .ofWord modulus)])
  | .equals bound => tagged "equals" (.ofWord bound)
  | .lessThan bound => tagged "below" (.ofWord bound)
  | .atMost bound => tagged "at_most" (.ofWord bound)
  | .greaterThan bound => tagged "above" (.ofWord bound)
  | .atLeast bound => tagged "at_least" (.ofWord bound)
  | .compare op lhs rhs =>
    tagged "compare" (record [("op", text op.key), ("lhs", lhs.toJson), ("rhs", rhs.toJson)])
  | .any members => tagged "any" (.array (listToJson members))
  | .all members => tagged "all" (.array (listToJson members))
  | .not operand => tagged "not" operand.toJson

/-- The stored forms of conditions. -/
def listToJson : List Condition → List JsonValue
  | [] => []
  | c :: cs => c.toJson :: listToJson cs

end

/-- The congruence with a stored form. -/
def congruentOfJson? : Nat → JsonValue → Option Condition
  | 0, _ => none
  | _ + 1, v =>
    match v.fields? ["offset", "modulus"] with
    | some [some offset, some modulus] => do
      let offset ← offset.toWord?
      let modulus ← modulus.toWord?
      some (.congruent offset modulus)
    | _ => none

/-- The comparison with a stored form. -/
def compareOfJson? : Nat → JsonValue → Option Condition
  | 0, _ => none
  | room + 1, v =>
    match v.fields? ["op", "lhs", "rhs"] with
    | some [some op, some lhs, some rhs] => do
      let op ← (op.unitVariant? room).bind CmpOp.ofKey?
      let lhs ← StepExpr.ofJson? room lhs
      let rhs ← StepExpr.ofJson? room rhs
      some (.compare op lhs rhs)
    | _ => none

mutual

/-- The condition with a stored form. -/
def ofJson? : Nat → JsonValue → Option Condition
  | room + 1, .object [(some key, v)] =>
    match key with
    | "const" => v.toBool?.map .const
    | "congruent" => congruentOfJson? room v
    | "equals" => v.toWord?.map .equals
    | "below" => v.toWord?.map .lessThan
    | "at_most" => v.toWord?.map .atMost
    | "above" => v.toWord?.map .greaterThan
    | "at_least" => v.toWord?.map .atLeast
    | "compare" => compareOfJson? room v
    | "any" => (listOfJson? room v).map .any
    | "all" => (listOfJson? room v).map .all
    | "not" => (ofJson? room v).map .not
    | _ => none
  | _, _ => none

/-- The conditions with a stored form. -/
def listOfJson? : Nat → JsonValue → Option (List Condition)
  | room + 1, .array items => items.mapM (ofJson? room)
  | _, _ => none

end

end Condition

/-! ### Rules -/

/-- The stored form of an outcome. -/
def Outcome.toJson : Outcome → JsonValue
  | .true => text "true"
  | .false => text "false"
  | .nil => text "nil"
  | .sentinel value => tagged "sentinel" (.ofWord value)

/-- The outcome with a stored form. -/
def Outcome.ofJson? (room : Nat) (v : JsonValue) : Option Outcome :=
  match v.unitVariant? room with
  | some "true" => some .true
  | some "false" => some .false
  | some "nil" => some .nil
  | some _ => none
  | none =>
    match room, v with
    | _ + 1, .object [(some "sentinel", v)] => v.toWord?.map .sentinel
    | _, _ => none

namespace Rule

/-- The stored form of a rule. -/
def toJson : Rule → JsonValue
  | .answer outcome => tagged "return" outcome.toJson
  | .test condition taken otherwise =>
    tagged "test" (record [("when", condition.toJson), ("then", taken.toJson),
      ("otherwise", otherwise.toJson)])
  | .rebase shift rule =>
    tagged "rebase" (record [("shift", .ofWord shift), ("rule", rule.toJson)])

mutual

/-- The rule with a stored form. -/
def ofJson? : Nat → JsonValue → Option Rule
  | room + 1, .object [(some key, v)] =>
    match key with
    | "return" => (Outcome.ofJson? room v).map .answer
    | "test" => testOfJson? room v
    | "rebase" => rebaseOfJson? room v
    | _ => none
  | _, _ => none

/-- The test with a stored form. -/
def testOfJson? : Nat → JsonValue → Option Rule
  | 0, _ => none
  | room + 1, v =>
    match v.fields? ["when", "then", "otherwise"] with
    | some [some condition, some taken, some otherwise] => do
      let condition ← Condition.ofJson? room condition
      let taken ← ofJson? room taken
      let otherwise ← ofJson? room otherwise
      some (.test condition taken otherwise)
    | _ => none

/-- The rebase with a stored form. -/
def rebaseOfJson? : Nat → JsonValue → Option Rule
  | 0, _ => none
  | room + 1, v =>
    match v.fields? ["shift", "rule"] with
    | some [some shift, some rule] => do
      let shift ← shift.toWord?
      let rule ← ofJson? room rule
      some (.rebase shift rule)
    | _ => none

end

/-- The rule that a JSON text stores. -/
def ofText? (s : String) : Option Rule := (JsonValue.parse s).bind (ofJson? maxNesting)

end Rule

/-- The expression that a JSON text stores. -/
def StepExpr.ofText? (s : String) : Option StepExpr :=
  (JsonValue.parse s).bind (StepExpr.ofJson? maxNesting)

end StepSequencer
