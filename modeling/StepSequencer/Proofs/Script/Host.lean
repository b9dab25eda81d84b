import StepSequencer.Proofs.Number.Words
import StepSequencer.Script.Body

/-!
# Function bodies as the host runs them

What the body of a rule means in the host's language, independently of how it becomes a rule. Values
are numbers, truth values, nil, strings and symbols; arithmetic is that of `Num`.

An expression may have no value, where a whole number is divided by zero or an operation does not
apply. A comparison with such a side is false.

## Running statements

`exec` follows the statements one by one. The answer of a body is kept as an expression together
with the parameter's value at that moment, and is only evaluated when it turns out to be the answer.
The expressions whose values the run asks for are listed as `met`: what is assumed of a body is
assumed of these and of no others.
-/

namespace StepSequencer.Script.Host

/-- What an expression is worth. -/
inductive Value where
  | nil
  | bool (value : Bool)
  | num (value : Num)
  | str (value : String)
  | symbol (name : String)

namespace Value

/-- Everything but false and nil counts as true. -/
def isTruthy : Value → Bool
  | .nil => false
  | .bool value => value
  | _ => true

/-- The number that a value is, if it is one. -/
def number? : Value → Option Num
  | .num n => some n
  | _ => none

/-- Whether two values are equal. Values of different kinds never are. -/
def equals : Value → Value → Bool
  | .nil, .nil => true
  | .bool a, .bool b => a == b
  | .num a, .num b => CmpOp.eq.holds a b
  | .str a, .str b | .symbol a, .symbol b => a == b
  | _, _ => false

end Value

/-! ### Expressions -/

/-- The comparison of two numbers; false where one of them is missing. -/
def compared (op : CmpOp) (a b : Option Num) : Bool :=
  match a, b with
  | some a, some b => op.holds a b
  | _, _ => false

/-- The equality of two values; false where one of them is missing. -/
def equal (a b : Option Value) : Bool :=
  match a, b with
  | some a, some b => a.equals b
  | _, _ => false

/-- A property of a number, by the name of its method. -/
def property (n : Option Num) : String → Option Bool
  | "even?" => some (compared .eq (n.bind fun n ↦ ArithOp.rem.apply n (.int 2)) (some (.int 0)))
  | "odd?" => some (compared .eq (n.bind fun n ↦ ArithOp.rem.apply n (.int 2)) (some (.int 1)))
  | "zero?" => some (compared .eq n (some (.int 0)))
  | "positive?" => some (compared (.order .gt) n (some (.int 0)))
  | "negative?" => some (compared (.order .lt) n (some (.int 0)))
  | _ => none

open Word (IsSmall)

variable (param : Option String)

/-- The value of an expression, where `v` is the value of the parameter. -/
def eval (v : Value) : Expr → Option Value
  | .int n => some (.num (.int n))
  | .float x => some (.num (.float x))
  | .bool b => some (.bool b)
  | .nil => some .nil
  | .str s => some (.str s)
  | .symbol name => some (.symbol name)
  | .var name => if param = some name then some v else none
  | .unary .not e => (eval v e).map fun w ↦ .bool !w.isTruthy
  | .unary .neg e => ((eval v e).bind Value.number?).map fun n ↦ .num n.neg
  | .binary .or a b => (eval v a).bind fun w ↦ if w.isTruthy then some w else eval v b
  | .binary .and a b => (eval v a).bind fun w ↦ if w.isTruthy then eval v b else some w
  | .binary .eq a b => some (.bool (equal (eval v a) (eval v b)))
  | .binary .ne a b => some (.bool !equal (eval v a) (eval v b))
  | .binary (.order op) a b =>
    some (.bool
      (compared (.order op) ((eval v a).bind Value.number?) ((eval v b).bind Value.number?)))
  | .binary (.arith op) a b =>
    ((eval v a).bind Value.number?).bind fun m ↦ ((eval v b).bind Value.number?).bind fun n ↦
      (op.apply m n).map .num
  | .method receiver name [] =>
    (property ((eval v receiver).bind Value.number?) name).map .bool
  | _ => none

/-! ### What is assumed of an expression -/

/-- Whether the expression is a conjunction or a disjunction. -/
def isConnective : Expr → Bool
  | .binary .or .. | .binary .and .. => true
  | _ => false

/-- Whether no side of an equality is a conjunction or a disjunction. -/
def plainEqualities : Expr → Bool
  | .unary _ e => plainEqualities e
  | .binary .eq a b | .binary .ne a b =>
    !isConnective a && !isConnective b && plainEqualities a && plainEqualities b
  | .binary _ a b => plainEqualities a && plainEqualities b
  | .method receiver _ _ => plainEqualities receiver
  | _ => true

/-- The value, if it is a whole number, is small. -/
def Value.IsSmall : Value → Prop
  | .num (.int n) => Word.IsSmall n.toInt
  | _ => True

/-- The exact result of an operator on whole numbers, where it is a whole number. -/
def exactResult? (op : ArithOp) (a b : Int) : Option Int :=
  match op with
  | .add => some (a + b)
  | .sub => some (a - b)
  | .mul => some (a * b)
  | .div => if b = 0 then none else some (a.fdiv b)
  | .rem => if b = 0 then none else some (a.fmod b)
  | .pow => if 0 ≤ b then some (a ^ b.toNat) else none

/-- The parameter, the constants and the exact results of the operations on whole numbers are small,
as far as the value of the expression depends on them. -/
def InBounds (v : Value) : Expr → Prop
  | .int n => IsSmall n.toInt
  | .var _ => v.IsSmall
  | .unary .not e => InBounds v e
  | .unary .neg e =>
    InBounds v e ∧ ∀ n, eval param v e = some (.num (.int n)) → IsSmall (-n.toInt)
  | .binary .or a b =>
    InBounds v a ∧ ∀ w, eval param v a = some w → w.isTruthy = false → InBounds v b
  | .binary .and a b =>
    InBounds v a ∧ ∀ w, eval param v a = some w → w.isTruthy = true → InBounds v b
  | .binary .eq a b | .binary .ne a b | .binary (.order _) a b => InBounds v a ∧ InBounds v b
  | .binary (.arith op) a b =>
    InBounds v a ∧ InBounds v b ∧
      ∀ m n, eval param v a = some (.num (.int m)) → eval param v b = some (.num (.int n)) →
        ∀ k ∈ exactResult? op m.toInt n.toInt, IsSmall k
  | .method receiver _ _ => InBounds v receiver
  | _ => True

/-- Each operation on whole numbers that the value of the expression depends on has the property. A
minus before a number takes it from zero, and its parity is its remainder by two. -/
def EachOperation (p : ArithOp → Int → Int → Prop) (v : Value) : Expr → Prop
  | .unary .not e => EachOperation p v e
  | .unary .neg e =>
    EachOperation p v e ∧ ∀ n, eval param v e = some (.num (.int n)) → p .sub 0 n.toInt
  | .binary .or a b =>
    EachOperation p v a ∧ ∀ w, eval param v a = some w → w.isTruthy = false → EachOperation p v b
  | .binary .and a b =>
    EachOperation p v a ∧ ∀ w, eval param v a = some w → w.isTruthy = true → EachOperation p v b
  | .binary .eq a b | .binary .ne a b | .binary (.order _) a b =>
    EachOperation p v a ∧ EachOperation p v b
  | .binary (.arith op) a b =>
    EachOperation p v a ∧ EachOperation p v b ∧
      ∀ m n, eval param v a = some (.num (.int m)) → eval param v b = some (.num (.int n)) →
        p op m.toInt n.toInt
  | .method receiver name _ =>
    EachOperation p v receiver ∧ (name ∈ ["even?", "odd?"] →
      ∀ n, eval param v receiver = some (.num (.int n)) → p .rem n.toInt 2)
  | _ => True

/-- The exact result is small. -/
def HasSmallResult (op : ArithOp) (m n : Int) : Prop := ∀ k ∈ exactResult? op m n, IsSmall k

/-- The sides of a remainder are small. -/
def HasSmallSides (op : ArithOp) (m n : Int) : Prop := op = .rem → IsSmall m ∧ IsSmall n

/-- The expression is true or false, if it has a value. -/
def IsTruthValue (v : Value) (e : Expr) : Prop := ∀ w, eval param v e = some w → ∃ p, w = .bool p

/-- Each conjunction and disjunction that is a side of an equality is true or false, as far as the
value of the expression depends on it. -/
def HasTruthSides (v : Value) : Expr → Prop
  | .unary _ e => HasTruthSides v e
  | .binary .or a b =>
    HasTruthSides v a ∧ ∀ w, eval param v a = some w → w.isTruthy = false → HasTruthSides v b
  | .binary .and a b =>
    HasTruthSides v a ∧ ∀ w, eval param v a = some w → w.isTruthy = true → HasTruthSides v b
  | .binary .eq a b | .binary .ne a b =>
    (isConnective a = true → IsTruthValue param v a) ∧
      (isConnective b = true → IsTruthValue param v b) ∧ HasTruthSides v a ∧ HasTruthSides v b
  | _ => True

/-- Each arithmetic expression that stands as a truth value has a value. `truth` says whether the
whole expression stands as one. -/
def Settled (v : Value) (truth : Bool) : Expr → Prop
  | .unary .not e => Settled v true e
  | .unary .neg e => truth = true → (eval param v (.unary .neg e)).isSome
  | .binary .or a b =>
    Settled v true a ∧ ∀ w, eval param v a = some w → w.isTruthy = false → Settled v true b
  | .binary .and a b =>
    Settled v true a ∧ ∀ w, eval param v a = some w → w.isTruthy = true → Settled v true b
  | .binary .eq a b | .binary .ne a b => Settled v false a ∧ Settled v false b
  | .binary (.order _) _ _ => True
  | .binary (.arith op) a b => truth = true → (eval param v (.binary (.arith op) a b)).isSome
  | _ => True

/-! ### Statements -/

/-- An expression whose value the run asks for, with the value of the parameter at that moment. -/
structure Met where
  value : Value
  expr : Expr
  /-- Whether it stands as a truth value. -/
  truth : Bool

/-- What is assumed of an expression that is met. -/
structure Met.Tame (m : Met) : Prop where
  plain : plainEqualities m.expr = true
  inBounds : InBounds param m.value m.expr
  settled : Settled param m.value m.truth m.expr

/-- The answer of a body: nil, or an expression with the value of the parameter. -/
abbrev Answer := Option (Value × Expr)

/-- Where a run stands after some statements. -/
inductive Flow where
  /-- The run goes on. The answer is that of the last statement. -/
  | goesOn (value : Value) (answer : Answer)
  | returned (answer : Answer)
  /-- The statement is none that a body can run, or what it needs has no value. -/
  | stuck

/-- Some statements as they were run. -/
structure Course where
  flow : Flow
  met : List Met

namespace Course

/-- The course in which an expression is met first. -/
def after (m : Met) (c : Course) : Course := ⟨c.flow, m :: c.met⟩

/-- The course of what follows, if the run goes on. -/
def andThen (c : Course) (next : Value → Answer → Course) : Course :=
  match c.flow with
  | .goesOn v answer => ⟨(next v answer).flow, c.met ++ (next v answer).met⟩
  | .returned answer => ⟨.returned answer, c.met⟩
  | .stuck => ⟨.stuck, c.met⟩

/-- The answer that the course ends with. -/
def answer? (c : Course) : Option Answer :=
  match c.flow with
  | .goesOn _ answer | .returned answer => some answer
  | .stuck => none

/-- The value that the course ends with. -/
def value? (c : Course) : Option Value :=
  match c.answer? with
  | some (some (v, e)) => eval param v e
  | some none => some .nil
  | none => none

/-- The expressions that the value depends on. -/
def asked (c : Course) : List Met :=
  match c.answer? with
  | some (some (v, e)) => c.met ++ [⟨v, e, true⟩]
  | _ => c.met

end Course

/-- Whether a condition counts as true. -/
def decided (v : Value) (e : Expr) : Option Bool := (eval param v e).map Value.isTruthy

mutual

/-- The course of one statement. -/
def exec (v : Value) : Stmt → Course
  | .ret _ none => ⟨.returned none, []⟩
  | .ret _ (some e) => ⟨.returned (some (v, e)), []⟩
  | .expr _ e => ⟨.goesOn v (some (v, e)), []⟩
  | .command .. => ⟨.goesOn v none, []⟩
  | .assign _ name e =>
    .after ⟨v, e, false⟩ <| match if param = some name then eval param v e else none with
      | some w => ⟨.goesOn w none, []⟩
      | none => ⟨.stuck, []⟩
  | .cond _ arms otherwise => execArms v (execAll v none otherwise) arms
  | .define .. | .liveLoop .. => ⟨.stuck, []⟩

/-- The course of a condition: the first branch that is taken, or else the last one. -/
def execArms (v : Value) (otherwise : Course) : List (Expr × List Stmt) → Course
  | [] => otherwise
  | (e, body) :: arms =>
    .after ⟨v, e, true⟩ <| match decided param v e with
      | some true => execAll v none body
      | some false => execArms v otherwise arms
      | none => ⟨.stuck, []⟩

/-- The course of statements one after the other. `answer` is that of the statement before. -/
def execAll (v : Value) (answer : Answer) : List Stmt → Course
  | [] => ⟨.goesOn v answer, []⟩
  | s :: ss => (exec v s).andThen fun v answer ↦ execAll v answer ss

end

/-- How a body runs at step `x`. -/
def course (x : Int64) (body : List Stmt) : Course :=
  execAll param (.num (.int x)) none body

end StepSequencer.Script.Host
