import StepSequencer.Proofs.Script.Conditions

/-!
# A function body and its rule

The rule that a function body becomes answers at every step as the body does when the host runs it.

* `course_append`: statements that follow others run after them, unless something returned. A rule
  has no statement after a condition: they are part of each of its branches.
* `Fits`: a rule answers as a course does. `blocks_fit` shows it for the rule of statements and of
  branches, by the ways to come by a rule.
* `block_agrees`: the main result.
-/

namespace StepSequencer

/-- What a rule answers is what the host answers. A truth value may be answered for any value that
counts as such. -/
def Outcome.Agrees : Outcome → Script.Host.Value → Prop
  | .nil, w => w = .nil
  | .sentinel n, w => w = .num (.int n)
  | .true, w => w.isTruthy = Bool.true
  | .false, w => w.isTruthy = Bool.false

theorem Outcome.Agrees.isTruthy {outcome : Outcome} {w : Script.Host.Value}
    (h : outcome.Agrees w) : outcome.isTruthy = w.isTruthy := by
  cases outcome with
  | true | false => exact h.symm
  | nil | sentinel => exact congrArg Script.Host.Value.isTruthy h.symm

namespace Script

open Attempts Host Word

variable {param : Option String} {x : Int64}

/-! ### Courses -/

namespace Host

theorem Course.andThen_assoc (c : Course) (f g : Value → Answer → Course) :
    (c.andThen f).andThen g = c.andThen fun v answer ↦ (f v answer).andThen g := by
  rcases c with ⟨⟨v, answer⟩ | answer | -, met⟩
  case returned | stuck => rfl
  case goesOn =>
    show Course.andThen ⟨(f v answer).flow, met ++ (f v answer).met⟩ g =
      ⟨((f v answer).andThen g).flow, met ++ ((f v answer).andThen g).met⟩
    rcases f v answer with ⟨⟨u, a⟩ | a | -, later⟩
    case returned | stuck => rfl
    case goesOn => exact congrArg (Course.mk _) (List.append_assoc met later (g u a).met)

theorem Course.after_andThen (m : Met) (c : Course) (f : Value → Answer → Course) :
    (c.after m).andThen f = (c.andThen f).after m := by
  rcases c with ⟨⟨v, answer⟩ | answer | -, met⟩ <;> rfl

/-- What is asked for after an expression was met. -/
theorem Course.asked_after (m : Met) (c : Course) : (c.after m).asked = m :: c.asked := by
  rcases c with ⟨⟨v, - | ⟨u, e⟩⟩ | (- | ⟨u, e⟩) | -, met⟩ <;> rfl

/-- Statements run after those before them. -/
theorem execAll_append (v : Value) (answer : Answer) (xs ys : List Stmt) :
    execAll param v answer (xs ++ ys) =
      (execAll param v answer xs).andThen fun v answer ↦ execAll param v answer ys := by
  induction xs generalizing v answer with
  | nil => rfl
  | cons s ss ih =>
    rw [List.cons_append, execAll, execAll, Course.andThen_assoc]
    exact congrArg _ (funext fun v ↦ funext fun answer ↦ ih v answer)

end Host

/-! ### Answers -/

variable (param) in
/-- The rule answers at step `x` as the course does, if what the course asks for is tame. -/
def Fits (x : Int64) (rule : Rule) (c : Course) : Prop :=
  (∀ m ∈ c.asked, m.Tame param) → ∃ w, c.value? param = some w ∧ (rule.outcome x).Agrees w

theorem Fits.after {rule : Rule} {c : Course} {m : Met}
    (h : m.Tame param → Fits param x rule c) : Fits param x rule (c.after m) := by
  intro htame
  rw [Course.asked_after, List.forall_mem_cons] at htame
  exact h htame.1 htame.2

theorem fits_nil {c : Course} (h : c.answer? = some none) :
    Fits param x (.answer .nil) c := by
  intro
  refine ⟨.nil, ?_, rfl⟩
  rw [Course.value?, h]

theorem branch_outcome (c : Condition) (taken otherwise : Rule) :
    (Body.branch c taken otherwise).outcome x =
      if c.holds x then taken.outcome x else otherwise.outcome x := by
  fun_cases Body.branch c taken otherwise <;> rfl

/-- **The rule of a value** answers as the host's value does. -/
theorem value_agrees {e : Expr} {rule : Rule} (h : Body.value param e = .ok rule)
    (htame : Met.Tame param ⟨.num (.int x), e, true⟩) :
    ∃ w, eval param (.num (.int x)) e = some w ∧ (rule.outcome x).Agrees w := by
  have hoperations := tame_of_inBounds e htame.inBounds
  cases Body.form_of_value h with
  | truth b =>
    refine ⟨.bool b, rfl, ?_⟩
    cases b <;> rfl
  | nil => exact ⟨.nil, rfl, rfl⟩
  | constant ht =>
    obtain ⟨m, hm, hstands⟩ := ofExpr_stands ht hoperations
    obtain rfl := hstands.eq_of_const
    exact ⟨_, hm, rfl⟩
  | @condition _ c hc =>
    have hdecided := condition_holds hc (hasTruthSides_of_plain e htame.plain) hoperations htame.settled
    obtain ⟨w, hw, htruthy⟩ := Option.map_eq_some_iff.mp hdecided
    refine ⟨w, hw, ?_⟩
    rw [branch_outcome]
    rcases hholds : c.holds x with - | - <;> exact htruthy.trans hholds

theorem fits_value {e : Expr} {rule : Rule} {c : Course} (h : Body.value param e = .ok rule)
    (hc : c.answer? = some (some (.num (.int x), e))) : Fits param x rule c := by
  intro htame
  have hm : ⟨.num (.int x), e, true⟩ ∈ c.asked := by
    rw [Course.asked, hc]
    exact List.mem_append_right _ (List.mem_singleton_self _)
  rw [Course.value?, hc]
  exact value_agrees h (htame _ hm)

/-! ### Statements -/

/-- The word that a shifted parameter becomes. -/
theorem assigned {e : Expr} {offset shift : Int64} (ht : Term.ofExpr param e = .ok (.step offset))
    (hshift : neg? offset = some shift) (hb : InBounds param (.num (.int x)) e) :
    eval param (.num (.int x)) e = some (.num (.int (x - shift))) := by
  obtain ⟨n, hn, hstands⟩ := ofExpr_stands ht (tame_of_inBounds e hb)
  have hvalue : n.toInt = x.toInt + offset.toInt := hstands.value
  have hshifted := toInt_sub_of_neg? hshift (hvalue ▸ holds_toInt n)
  rw [hn, Int64.toInt_inj.mp (hvalue.trans hshifted.symm)]

variable (param) in
/-- The rule answers as the statements do. -/
def BlockFits (stmts : List Stmt) (rule : Rule) : Prop := ∀ x, Fits param x rule (course param x stmts)

variable (param) in
/-- The rule answers as the branches do, with what follows the condition, if `last` does so for the case
in which none is taken. -/
def BranchesFit (arms : List (Expr × List Stmt)) (rest : List Stmt) (last rule : Rule) : Prop :=
  ∀ x otherwise,
    Fits param x last (Course.andThen otherwise fun v answer ↦ execAll param v answer rest) →
    Fits param x rule ((execArms param (.num (.int x)) otherwise arms).andThen
      fun v answer ↦ execAll param v answer rest)

section Statements

variable {line : Nat} {e : Expr} {body otherwise rest : List Stmt} {arms : List (Expr × List Stmt)}
  {last rule : Rule}

theorem blockFits_cond (hotherwise : BlockFits param (otherwise ++ rest) last)
    (hbranches : BranchesFit param arms rest last rule) :
    BlockFits param (.cond line arms otherwise :: rest) rule := by
  intro x
  refine hbranches x _ ?_
  rw [← execAll_append]
  exact hotherwise x

theorem blockFits_assign {name : String} {offset shift : Int64} (hname : param = some name)
    (hterm : Term.ofExpr param e = .ok (.step offset)) (hshift : neg? offset = some shift)
    (hrest : BlockFits param rest rule) :
    BlockFits param (.assign line name e :: rest) (.rebase shift rule) := by
  intro x
  show Fits param x _ (Course.andThen (.after _ _) _)
  rw [Course.after_andThen, if_pos hname]
  refine Fits.after fun hm ↦ ?_
  rw [assigned hterm hshift hm.inBounds]
  exact hrest (x - shift)

theorem branchesFit_cons {taken : Rule} {c : Condition} (harms : BranchesFit param arms rest last rule)
    (hbody : BlockFits param (body ++ rest) taken) (hc : Body.condition param e = .ok c) :
    BranchesFit param ((e, body) :: arms) rest last (Body.branch c taken rule) := by
  intro x otherwise hlast
  rw [execArms, Course.after_andThen]
  refine Fits.after fun hm ↦ ?_
  rw [condition_holds hc (hasTruthSides_of_plain e hm.plain) (tame_of_inBounds e hm.inBounds)
    hm.settled, Fits, branch_outcome]
  rcases c.holds x with - | -
  case true =>
    show Fits param x taken ((execAll param _ none body).andThen _)
    rw [← execAll_append]
    exact hbody x
  case false => exact harms x otherwise hlast

end Statements

/-- **The rule of some statements** answers as they do. -/
theorem blocks_fit : (∀ stmts rule, Body.block param stmts = .ok rule → BlockFits param stmts rule) ∧
    ∀ line arms rest last rule, Body.branches param line arms rest last = .ok rule →
      BranchesFit param arms rest last rule := by
  refine Body.rules_induction (p := BlockFits param) (q := BranchesFit param) ?nil ?retNil ?ret ?cond
    ?assign ?expr ?command ?skipExpr ?skipCommand ?noArms ?arm
  case nil => exact fun _ ↦ fits_nil rfl
  case retNil => exact fun _ _ _ ↦ fits_nil rfl
  case ret => exact fun _ _ _ _ h _ ↦ fits_value h rfl
  case cond => exact fun _ _ _ _ _ _ ↦ blockFits_cond
  case assign => exact fun _ _ _ _ _ _ _ ↦ blockFits_assign
  case expr => exact fun _ _ _ h _ ↦ fits_value h rfl
  case command => exact fun _ _ _ _ _ ↦ fits_nil rfl
  -- what is not last does not matter
  case skipExpr => exact fun _ _ _ _ _ hrest ↦ hrest
  case skipCommand => exact fun _ _ _ _ _ _ _ hrest ↦ hrest
  case noArms => exact fun _ _ _ _ hlast ↦ hlast
  case arm => exact fun _ _ _ _ _ _ _ _ ↦ branchesFit_cons

/-- **A function body and its rule** answer alike at every step at which what the body asks for is
tame. -/
theorem block_agrees {stmts : List Stmt} {rule : Rule} (h : Body.block param stmts = .ok rule)
    (htame : ∀ m ∈ (course param x stmts).asked, m.Tame param) :
    ∃ w, (course param x stmts).value? param = some w ∧ (rule.outcome x).Agrees w ∧
      rule.fires x = w.isTruthy := by
  obtain ⟨w, hw, hagrees⟩ := blocks_fit.1 stmts rule h x htame
  exact ⟨w, hw, hagrees, hagrees.isTruthy⟩

/-- Answers nine where the step after this one is a multiple of four, and otherwise whether that step
is past the second. -/
def everyFourth : List Stmt :=
  [.assign 1 "n" (.binary (.arith .add) (.var "n") (.int 1)),
    .cond 2 [(.binary .eq (.binary (.arith .rem) (.var "n") (.int 4)) (.int 0),
      [.ret 3 (some (.int 9))])] [],
    .expr 4 (.binary (.order .gt) (.var "n") (.int 2))]

theorem tame_everyFourth : ∀ m ∈ (course (some "n") 3 everyFourth).asked, m.Tame (some "n") := by
  have hzero : IsSmall (0 : Int64).toInt := by decide
  have hone : IsSmall (1 : Int64).toInt := by decide
  have hthree : IsSmall (3 : Int64).toInt := by decide
  have hfour : IsSmall (4 : Int64).toInt := by decide
  have hassigned : Met.Tame (some "n")
      ⟨.num (.int 3), .binary (.arith .add) (.var "n") (.int 1), false⟩ := by
    refine ⟨rfl, ⟨hthree, hone, ?_⟩, fun h ↦ by cases h⟩
    rintro m n ⟨⟩ ⟨⟩ k ⟨⟩
    exact ⟨by decide, by decide⟩
  have hdecided : Met.Tame (some "n") ⟨.num (.int 4),
      .binary .eq (.binary (.arith .rem) (.var "n") (.int 4)) (.int 0), true⟩ := by
    refine ⟨rfl, ⟨⟨hfour, hfour, ?_⟩, hzero⟩, fun h ↦ (by cases h), trivial⟩
    rintro m n ⟨⟩ ⟨⟩ k ⟨⟩
    exact ⟨by decide, by decide⟩
  have hanswered : Met.Tame (some "n") ⟨.num (.int 4), .int 9, true⟩ :=
    ⟨rfl, (by decide : IsSmall (9 : Int64).toInt), trivial⟩
  have hasked : (course (some "n") 3 everyFourth).asked =
      [⟨.num (.int 3), .binary (.arith .add) (.var "n") (.int 1), false⟩,
        ⟨.num (.int 4), .binary .eq (.binary (.arith .rem) (.var "n") (.int 4)) (.int 0), true⟩,
        ⟨.num (.int 4), .int 9, true⟩] := rfl
  rw [hasked, List.forall_mem_cons, List.forall_mem_cons, List.forall_mem_singleton]
  exact ⟨hassigned, hdecided, hanswered⟩

/-- On step three the body returns nine. -/
theorem block_agrees_everyFourth :
    ∃ rule w, Body.block (some "n") everyFourth = .ok rule ∧
      (course (some "n") 3 everyFourth).value? (some "n") = some w ∧
      (rule.outcome 3).Agrees w ∧ rule.fires 3 = true ∧ w = .num (.int 9) := by
  have hrule : Body.block (some "n") everyFourth = .ok (.rebase (-1) (.test (.congruent 0 4)
      (.answer (.sentinel 9)) (.test (.greaterThan 2) (.answer .true) (.answer .false)))) := by
    with_unfolding_all rfl
  obtain ⟨w, hw, hagrees, hfires⟩ := block_agrees hrule tame_everyFourth
  exact ⟨_, w, hrule, hw, hagrees, rfl, (Option.some.inj hw).symm⟩

end Script

end StepSequencer
