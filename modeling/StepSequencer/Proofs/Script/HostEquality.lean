import StepSequencer.Proofs.Script.Conditions

/-!
# Equality and the host's equality

The condition that an equality becomes, against the equality of the host's values. They agree where the
results of the operations on whole numbers are small, with three more things assumed.

* The sides of a remainder are small. A remainder of the step becomes a congruence, and that adds to
  the step without a check.
* A conjunction or disjunction that is a side of an equality is true or false. The host gives the value
  of one of its sides; the condition takes any value but false and nil for true.
* Arithmetic that stands as a truth value has a value. The condition takes it for true if the step is
  in it, also where it divides by zero.
-/

namespace StepSequencer.Script

open Host Word

variable {param : Option String} {x : Int64} {lhs rhs : Expr} {c : Condition}

/-- **An equality** holds exactly where the host's values of its sides are equal. -/
theorem equality_agrees (h : Body.equality param lhs rhs = .ok c)
    (hresults : EachOperation param HasSmallResult (.num (.int x)) (.binary .eq lhs rhs))
    (hsides : EachOperation param HasSmallSides (.num (.int x)) (.binary .eq lhs rhs))
    (htruth : HasTruthSides param (.num (.int x)) (.binary .eq lhs rhs))
    (hsettled : Settled param (.num (.int x)) false (.binary .eq lhs rhs)) :
    c.holds x = equal (eval param (.num (.int x)) lhs) (eval param (.num (.int x)) rhs) := by
  have htame := eachOperation_and _ hresults hsides
  obtain ⟨hltruth, hrtruth, hl, hr⟩ := htruth
  exact equality_holds h hltruth hrtruth htame.1 htame.2 hsettled.1 hsettled.2
    (fun c hc ↦ condition_holds hc hl htame.1) (fun c hc ↦ condition_holds hc hr htame.2)

/-- The step leaves two by four and is at most nine. -/
def evenLow : Expr :=
  .binary .and (.binary .eq (.binary (.arith .rem) (.var "x") (.int 4)) (.int 2))
    (.unary .not (.binary (.order .gt) (.var "x") (.int 9)))

/-- On step six a conjunction of comparisons is true, and it equals another comparison that is. -/
theorem equality_agrees_conjunction :
    ∃ c, Body.equality (some "x") evenLow (.binary .ne (.var "x") (.int 3)) = .ok c ∧
      c.holds 6 = equal (eval (some "x") (.num (.int 6)) evenLow)
        (eval (some "x") (.num (.int 6)) (.binary .ne (.var "x") (.int 3))) ∧
      c.holds 6 = true := by
  have hread : Body.equality (some "x") evenLow (.binary .ne (.var "x") (.int 3)) =
      .ok (.any [.all [.congruent (-2) 4, .not (.greaterThan 9), .not (.equals 3)],
        .all [.not (.all [.congruent (-2) 4, .not (.greaterThan 9)]), .equals 3]]) := by
    with_unfolding_all rfl
  have htrue : eval (some "x") (.num (.int 6)) evenLow = some (.bool true) := rfl
  have hresults : EachOperation (some "x") HasSmallResult (.num (.int 6))
      (.binary .eq evenLow (.binary .ne (.var "x") (.int 3))) := by
    refine ⟨⟨⟨⟨trivial, trivial, ?_⟩, trivial⟩, fun _ _ _ ↦ ⟨trivial, trivial⟩⟩, trivial, trivial⟩
    rintro m n ⟨⟩ ⟨⟩ k ⟨⟩
    exact ⟨by decide, by decide⟩
  have hsides : EachOperation (some "x") HasSmallSides (.num (.int 6))
      (.binary .eq evenLow (.binary .ne (.var "x") (.int 3))) := by
    refine ⟨⟨⟨⟨trivial, trivial, ?_⟩, trivial⟩, fun _ _ _ ↦ ⟨trivial, trivial⟩⟩, trivial, trivial⟩
    rintro m n ⟨⟩ ⟨⟩ -
    exact ⟨by decide, by decide⟩
  have htruth : HasTruthSides (some "x") (.num (.int 6))
      (.binary .eq evenLow (.binary .ne (.var "x") (.int 3))) := by
    refine ⟨fun _ w hw ↦ ⟨true, Option.some.inj (hw.symm.trans htrue)⟩, nofun, ?_, nofun, nofun,
      trivial, trivial⟩
    exact ⟨⟨nofun, nofun, trivial, trivial⟩, fun _ _ _ ↦ trivial⟩
  have hsettled : Settled (some "x") (.num (.int 6)) false
      (.binary .eq evenLow (.binary .ne (.var "x") (.int 3))) :=
    ⟨⟨⟨nofun, trivial⟩, fun _ _ _ ↦ trivial⟩, trivial, trivial⟩
  exact ⟨_, hread, equality_agrees hread hresults hsides htruth hsettled, rfl⟩

/-- The equality is accepted and the results of its operations are small, but the condition that it
becomes holds where the host's values differ, or the other way round. -/
def Disagrees (lhs rhs : Expr) (x : Int64) : Prop :=
  ∃ c, Body.equality (some "x") lhs rhs = .ok c ∧
    EachOperation (some "x") HasSmallResult (.num (.int x)) (.binary .eq lhs rhs) ∧
    c.holds x = !equal (eval (some "x") (.num (.int x)) lhs) (eval (some "x") (.num (.int x)) rhs)

/-- **Equalities that do not agree**: a conjunction with a number for its value, the negation of a
quotient without a value, and a remainder close to the least word. -/
theorem not_equality_agrees :
    Disagrees (.binary .and (.var "x") (.int 2)) (.int 2) 0 ∧
    Disagrees (.unary .not (.binary (.arith .div) (.int 1) (.var "x"))) (.bool false) 0 ∧
    Disagrees (.binary (.arith .rem) (.var "x") (.int 7)) (.int 2) (Int64.minValue + 1) := by
  refine ⟨⟨.const false, by with_unfolding_all rfl, ?_, by decide +kernel⟩,
    ⟨.const true, by with_unfolding_all rfl, ?_, by decide +kernel⟩,
    ⟨.congruent (-2) 7, by with_unfolding_all rfl, ?_, by decide +kernel⟩⟩
  · exact ⟨⟨trivial, fun _ _ _ ↦ trivial⟩, trivial⟩
  · refine ⟨⟨trivial, trivial, ?_⟩, trivial⟩
    rintro m n ⟨⟩ ⟨⟩ k ⟨⟩
  · refine ⟨⟨trivial, trivial, ?_⟩, trivial⟩
    rintro m n ⟨⟩ ⟨⟩ k ⟨⟩
    exact ⟨by decide +kernel, by decide +kernel⟩

end StepSequencer.Script
