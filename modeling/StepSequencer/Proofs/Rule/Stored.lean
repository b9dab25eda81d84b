import StepSequencer.Proofs.Json.Decoding
import StepSequencer.Proofs.Number.Words
import StepSequencer.Rule.Json

/-!
# Stored rules

What the stored form of a rule gives back. Each decoder yields the value that was stored, under two
conditions: the stored form is not nested deeper than there is room for, and every float in it is
finite. A float that is not finite is stored as null, which is no number.

Nothing else can go wrong, so the condition is exact (`Rule.ofJson?_toJson`).
-/

namespace StepSequencer

open JsonValue (tagged record text Writable yields_tagged yields_record yields_array)

/-- Each of the floats that is finite is what its literal stands for. -/
def KeepsFinite (xs : List Float) : Prop := ∀ x ∈ xs, x.isFinite = true → KeepsDouble x

/-- The stored form fits into the room, and the floats in it are finite. -/
def IsStorable (room : Nat) (v : JsonValue) (xs : List Float) : Prop :=
  v.nesting ≤ room ∧ ∀ x ∈ xs, x.isFinite = true

theorem keepsFinite_append {xs ys : List Float} :
    KeepsFinite (xs ++ ys) ↔ KeepsFinite xs ∧ KeepsFinite ys :=
  List.forall_mem_append

/-! ### Numbers and operators -/

namespace Num

/-- The float that the number is, if it is one. -/
def floats : Num → List Float
  | .int _ => []
  | .float x => [x]

theorem writable (n : Num) : n.toJson.Writable := by
  cases n with
  | int n => exact JsonValue.writable_ofWord n
  | float x => exact JsonValue.writable_ofDouble x

theorem nesting_toJson (n : Num) : n.toJson.nesting = 0 := by
  cases n with
  | int n => rfl
  | float x => exact JsonValue.nesting_ofDouble x

/-- A stored number is read back, a whole one always and a float if it is finite. -/
theorem ofJson?_toJson (n : Num) (h : KeepsFinite n.floats) :
    YieldsIf (ofJson? n.toJson) n (∀ x ∈ n.floats, x.isFinite = true) := by
  cases n with
  | int n =>
    have hlow := n.le_toInt
    have hhigh := n.toInt_lt
    have hnumber : (JsonValue.ofWord n).toNumber? = some (.whole n.toInt) :=
      JsonNumber.ofString_toString hlow (by omega)
    rw [toJson, ofJson?, hnumber]
    dsimp only
    rw [Word.ofInt?_eq_some_iff.mpr rfl]
    exact (YieldsIf.of_eq rfl).congr (by simp [floats])
  | float x =>
    rw [toJson, JsonValue.ofDouble]
    by_cases hfinite : x.isFinite = true
    · have hnumber : (JsonValue.number (NumberLayout.json.double x)).toNumber? = some (.real x) :=
        h x (List.mem_singleton_self x) hfinite
      rw [if_pos hfinite, ofJson?, hnumber]
      exact (YieldsIf.of_eq rfl).congr (by simp [floats, hfinite])
    · rw [if_neg hfinite]
      exact .of_none rfl (by simp [floats, hfinite])

end Num

/-- A text names a variant without data however little room there is. -/
theorem unitVariant?_text (room : Nat) (s : String) : (text s).unitVariant? room = some s := by
  cases room <;> rfl

theorem ArithOp.ofKey?_key (op : ArithOp) : ofKey? op.key = some op := by
  cases op <;> rfl

theorem CmpOp.ofKey?_key (op : CmpOp) : ofKey? op.key = some op := by
  rcases op with - | ⟨- | - | - | -⟩ <;> rfl

/-- An operator and its two operands fit where the operands do. -/
theorem forall_operands {key : String} {lhs rhs : JsonValue} {room : Nat} :
    (∀ m ∈ [("op", text key), ("lhs", lhs), ("rhs", rhs)], m.2.nesting ≤ room) ↔
      lhs.nesting ≤ room ∧ rhs.nesting ≤ room := by
  simp

/-! ### Expressions -/

namespace StepExpr

/-- The floats among the constants. -/
def floats : StepExpr → List Float
  | .step => []
  | .const value => value.floats
  | .neg operand => operand.floats
  | .binary _ lhs rhs => lhs.floats ++ rhs.floats

theorem writable (e : StepExpr) : e.toJson.Writable := by
  induction e with
  | step => exact .text "step"
  | const value => exact value.writable.tagged "const"
  | neg operand ih => exact ih.tagged "neg"
  | binary op lhs rhs hlhs hrhs =>
    refine Writable.tagged (.record ?_) "binary"
    simp only [List.forall_mem_cons, hlhs, hrhs, Writable.text, List.not_mem_nil, false_imp_iff,
      implies_true, and_self]

/-- A stored expression is read back exactly if it fits and its floats are finite. -/
theorem ofJson?_toJson (e : StepExpr) (h : KeepsFinite e.floats) (room : Nat) :
    YieldsIf (ofJson? room e.toJson) e (IsStorable room e.toJson e.floats) := by
  induction e generalizing room with
  | step =>
    have hread : ofJson? room (text "step") = some .step := by cases room <;> rfl
    exact (YieldsIf.of_eq hread).congr (by simp [IsStorable, toJson, floats])
  | const value =>
    refine yields_tagged rfl fun room ↦ ?_
    refine ((value.ofJson?_toJson h).map StepExpr.const).congr ?_
    rw [value.nesting_toJson]
    exact and_iff_right (Nat.zero_le room)
  | neg operand ih => exact yields_tagged rfl fun room ↦ (ih h room).map StepExpr.neg
  | binary op lhs rhs hlhs hrhs =>
    obtain ⟨hl, hr⟩ := keepsFinite_append.mp h
    refine yields_tagged rfl fun room ↦ ?_
    show YieldsIf (binaryOfJson? room (record _)) _ _
    refine yields_record rfl fun room ↦ ?_
    have hfields := JsonValue.fields?_record ["op", "lhs", "rhs"]
      [("op", text op.key), ("lhs", lhs.toJson), ("rhs", rhs.toJson)] rfl (by decide)
    have hop : ((text op.key).unitVariant? room).bind ArithOp.ofKey? = some op := by
      rw [unitVariant?_text, Option.bind_some, op.ofKey?_key]
    simp only [List.map_cons, List.map_nil] at hfields
    simp only [binaryOfJson?, hfields, Option.bind_eq_bind, hop, Option.bind_some]
    refine ((hlhs hl room).bind (hrhs hr room).into).congr ?_
    rw [floats, List.forall_mem_append, forall_operands]
    exact and_and_and_comm

end StepExpr

/-! ### Conditions -/

namespace Condition

mutual

/-- The floats among the constants. -/
def floats : Condition → List Float
  | .compare _ lhs rhs => lhs.floats ++ rhs.floats
  | .any members | .all members => listFloats members
  | .not operand => operand.floats
  | _ => []

/-- The floats among the constants of conditions. -/
def listFloats : List Condition → List Float
  | [] => []
  | c :: cs => c.floats ++ listFloats cs

end

mutual

theorem writable : ∀ c : Condition, c.toJson.Writable
  | .const value => (Writable.bool value).tagged "const"
  | .congruent offset modulus => by
    refine Writable.tagged (.record ?_) "congruent"
    simp only [List.forall_mem_cons, JsonValue.writable_ofWord, List.not_mem_nil, false_imp_iff,
      implies_true, and_self]
  | .equals bound => (JsonValue.writable_ofWord bound).tagged "equals"
  | .lessThan bound => (JsonValue.writable_ofWord bound).tagged "below"
  | .atMost bound => (JsonValue.writable_ofWord bound).tagged "at_most"
  | .greaterThan bound => (JsonValue.writable_ofWord bound).tagged "above"
  | .atLeast bound => (JsonValue.writable_ofWord bound).tagged "at_least"
  | .compare op lhs rhs => by
    refine Writable.tagged (.record ?_) "compare"
    simp only [List.forall_mem_cons, lhs.writable, rhs.writable, Writable.text, List.not_mem_nil,
      false_imp_iff, implies_true, and_self]
  | .any members => (Writable.array (listWritable members)).tagged "any"
  | .all members => (Writable.array (listWritable members)).tagged "all"
  | .not operand => (writable operand).tagged "not"

theorem listWritable : ∀ cs : List Condition, ∀ v ∈ listToJson cs, v.Writable
  | [] => List.forall_mem_nil _
  | c :: cs => List.forall_mem_cons.mpr ⟨writable c, listWritable cs⟩

end

/-- A condition that holds one word. -/
theorem yields_word {key : String} {build : Int64 → Condition} {w : Int64} {room : Nat}
    (hzero : ofJson? 0 (tagged key (.ofWord w)) = none)
    (hsucc : ∀ room, ofJson? (room + 1) (tagged key (.ofWord w)) =
      (JsonValue.ofWord w).toWord?.map build) :
    YieldsIf (ofJson? room (tagged key (.ofWord w))) (build w)
      (IsStorable room (tagged key (.ofWord w)) []) := by
  refine yields_tagged hzero fun room ↦ (YieldsIf.of_eq ?_).congr ?_
  · rw [hsucc, JsonValue.toWord?_ofWord, Option.map_some]
  · simp

mutual

/-- A stored condition is read back exactly if it fits and its floats are finite. -/
theorem ofJson?_toJson : ∀ c : Condition, KeepsFinite c.floats → ∀ room,
    YieldsIf (ofJson? room c.toJson) c (IsStorable room c.toJson c.floats)
  | .const value, _, room => by
    refine yields_tagged rfl fun room ↦ (YieldsIf.of_eq rfl).congr ?_
    simp [floats]
  | .congruent offset modulus, _, room => by
    refine yields_tagged rfl fun room ↦ ?_
    show YieldsIf (congruentOfJson? room (record _)) _ _
    refine yields_record rfl fun room ↦ ?_
    have hfields := JsonValue.fields?_record ["offset", "modulus"]
      [("offset", .ofWord offset), ("modulus", .ofWord modulus)] rfl (by decide)
    simp only [List.map_cons, List.map_nil] at hfields
    simp only [congruentOfJson?, hfields, Option.bind_eq_bind, JsonValue.toWord?_ofWord,
      Option.bind_some]
    exact (YieldsIf.of_eq rfl).congr (by simp [floats])
  | .equals _, _, _ | .lessThan _, _, _ | .atMost _, _, _ | .greaterThan _, _, _
  | .atLeast _, _, _ => yields_word rfl fun _ ↦ rfl
  | .compare op lhs rhs, h, room => by
    obtain ⟨hl, hr⟩ := keepsFinite_append.mp h
    refine yields_tagged rfl fun room ↦ ?_
    show YieldsIf (compareOfJson? room (record _)) _ _
    refine yields_record rfl fun room ↦ ?_
    have hfields := JsonValue.fields?_record ["op", "lhs", "rhs"]
      [("op", text op.key), ("lhs", lhs.toJson), ("rhs", rhs.toJson)] rfl (by decide)
    have hop : ((text op.key).unitVariant? room).bind CmpOp.ofKey? = some op := by
      rw [unitVariant?_text, Option.bind_some, op.ofKey?_key]
    simp only [List.map_cons, List.map_nil] at hfields
    simp only [compareOfJson?, hfields, Option.bind_eq_bind, hop, Option.bind_some]
    refine ((lhs.ofJson?_toJson hl room).bind (rhs.ofJson?_toJson hr room).into).congr ?_
    rw [floats, List.forall_mem_append, forall_operands]
    exact and_and_and_comm
  | .any members, h, room =>
    yields_tagged rfl fun room ↦ (listOfJson?_listToJson members h room).map Condition.any
  | .all members, h, room =>
    yields_tagged rfl fun room ↦ (listOfJson?_listToJson members h room).map Condition.all
  | .not operand, h, room => yields_tagged rfl fun room ↦ (ofJson?_toJson operand h room).map Condition.not

theorem listOfJson?_listToJson : ∀ cs : List Condition, KeepsFinite (listFloats cs) → ∀ room,
    YieldsIf (listOfJson? room (.array (listToJson cs))) cs
      (IsStorable room (.array (listToJson cs)) (listFloats cs))
  | cs, h, room => yields_array rfl fun room ↦ mapM_listToJson cs h room

/-- Conditions are read back one by one, so each of them has to be. -/
theorem mapM_listToJson : ∀ cs : List Condition, KeepsFinite (listFloats cs) → ∀ room,
    YieldsIf ((listToJson cs).mapM (ofJson? room)) cs
      ((∀ v ∈ listToJson cs, v.nesting ≤ room) ∧ ∀ x ∈ listFloats cs, x.isFinite = true)
  | [], _, _ => (YieldsIf.of_eq rfl).congr (by simp [listToJson, listFloats])
  | c :: cs, h, room => by
    obtain ⟨hc, hcs⟩ := keepsFinite_append.mp h
    rw [listToJson, List.mapM_cons, listFloats, List.forall_mem_cons, List.forall_mem_append]
    exact ((ofJson?_toJson c hc room).bind (mapM_listToJson cs hcs room).into).congr and_and_and_comm

end

end Condition

/-! ### Rules -/

namespace Outcome

theorem writable (o : Outcome) : o.toJson.Writable := by
  cases o with
  | true | false | nil => exact .text _
  | sentinel value => exact (JsonValue.writable_ofWord value).tagged "sentinel"

/-- A stored outcome has no floats and is read back exactly if it fits. -/
theorem ofJson?_toJson (o : Outcome) (room : Nat) :
    YieldsIf (ofJson? room o.toJson) o (o.toJson.nesting ≤ room) := by
  cases o with
  | true | false | nil =>
    exact (YieldsIf.of_eq (by cases room <;> rfl)).congr (by simp [toJson])
  | sentinel value =>
    refine (yields_tagged (p := True) rfl fun room ↦ ?_).congr (by simp [toJson])
    refine (YieldsIf.of_eq ?_).congr (by simp)
    show (JsonValue.ofWord value).toWord?.map sentinel = _
    rw [JsonValue.toWord?_ofWord, Option.map_some]

end Outcome

namespace Rule

/-- The floats among the constants. -/
def floats : Rule → List Float
  | .answer _ => []
  | .test condition taken otherwise => condition.floats ++ (taken.floats ++ otherwise.floats)
  | .rebase _ rule => rule.floats

/-- The stored form of a rule can be written, whatever its floats are. -/
theorem writable (r : Rule) : r.toJson.Writable := by
  induction r with
  | answer outcome => exact outcome.writable.tagged "return"
  | test condition taken otherwise htaken hotherwise =>
    refine Writable.tagged (.record ?_) "test"
    simp only [List.forall_mem_cons, condition.writable, htaken, hotherwise, List.not_mem_nil,
      false_imp_iff, implies_true, and_self]
  | rebase shift rule ih =>
    refine Writable.tagged (.record ?_) "rebase"
    simp only [List.forall_mem_cons, JsonValue.writable_ofWord, ih, List.not_mem_nil, false_imp_iff,
      implies_true, and_self]

/-- **A stored rule** is read back exactly if it fits and its floats are finite. -/
theorem ofJson?_toJson (r : Rule) (h : KeepsFinite r.floats) (room : Nat) :
    YieldsIf (ofJson? room r.toJson) r (IsStorable room r.toJson r.floats) := by
  induction r generalizing room with
  | answer outcome =>
    refine yields_tagged rfl fun room ↦ ((outcome.ofJson?_toJson room).map Rule.answer).congr ?_
    simp [floats]
  | test condition taken otherwise htaken hotherwise =>
    obtain ⟨hc, hbranches⟩ := keepsFinite_append.mp h
    obtain ⟨ht, ho⟩ := keepsFinite_append.mp hbranches
    refine yields_tagged rfl fun room ↦ ?_
    show YieldsIf (testOfJson? room (record _)) _ _
    refine yields_record rfl fun room ↦ ?_
    have hfields := JsonValue.fields?_record ["when", "then", "otherwise"]
      [("when", condition.toJson), ("then", taken.toJson), ("otherwise", otherwise.toJson)] rfl
      (by decide)
    simp only [List.map_cons, List.map_nil] at hfields
    simp only [testOfJson?, hfields, Option.bind_eq_bind]
    refine ((condition.ofJson?_toJson hc room).bind
      ((htaken ht room).bind (hotherwise ho room).into)).congr ?_
    simp only [IsStorable, floats, List.forall_mem_cons, List.forall_mem_append, List.not_mem_nil,
      false_imp_iff, implies_true, and_true]
    tauto
  | rebase shift rule ih =>
    refine yields_tagged rfl fun room ↦ ?_
    show YieldsIf (rebaseOfJson? room (record _)) _ _
    refine yields_record rfl fun room ↦ ?_
    have hfields := JsonValue.fields?_record ["shift", "rule"]
      [("shift", .ofWord shift), ("rule", rule.toJson)] rfl (by decide)
    simp only [List.map_cons, List.map_nil] at hfields
    simp only [rebaseOfJson?, hfields, Option.bind_eq_bind, JsonValue.toWord?_ofWord,
      Option.bind_some]
    refine (ih h room).into.congr ?_
    simp [IsStorable, floats]

end Rule

end StepSequencer
