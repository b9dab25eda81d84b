import StepSequencer.Rule.Simplify

/-!
# Simplified conditions

A condition means the same before and after it is simplified: at every step each connective holds
where the truth values of its parts say so.
-/

namespace StepSequencer

namespace StepExpr

/-- An expression in which the step does not occur has the same value at all steps. -/
theorem eval_eq_of_not_usesStep {e : StepExpr} (h : e.usesStep = false) (x y : Int64) :
    e.eval x = e.eval y := by
  induction e with
  | step => cases h
  | const value => rfl
  | neg operand ih => rw [eval, eval, ih h]
  | binary op lhs rhs ihl ihr =>
    rw [usesStep, Bool.or_eq_false_iff] at h
    rw [eval, eval, ihl h.1, ihr h.2]

/-- Folding does not change a value. -/
theorem folded_eval (e : StepExpr) (x : Int64) : e.folded.eval x = e.eval x := by
  unfold folded
  split
  · rfl
  · next h =>
    rw [Bool.not_eq_true] at h
    rcases hvalue : e.eval 0 with - | value
    · rfl
    · rw [eval_eq_of_not_usesStep h x 0, hvalue]
      rfl

end StepExpr

/-! ### Connectives with members -/

namespace Connective

variable {k : Connective} {c : Condition} {cs : List Condition}

/-- Whether the condition stays as it is among the members. -/
def takes : Connective → Condition → Bool
  | _, .const _ | .any, .any _ | .all, .all _ => false
  | _, _ => true

/-- What a condition adds to the members of a connective, by what it is. -/
inductive Adds (k : Connective) : Condition → Option (List Condition) → Prop where
  | settling : Adds k (.const k.settling) none
  | neutral : Adds k (.const !k.settling) (some [])
  | members (inner : List Condition) : Adds k (k.condition inner) (some inner)
  | itself {c : Condition} (h : k.takes c = true) : Adds k c (some [c])

theorem adds_members? (k : Connective) (c : Condition) : k.Adds c (k.members? c) := by
  unfold members?
  split
  · next inner => exact .members inner
  · next inner => exact .members inner
  · next k value =>
    split
    · next h =>
      rw [h]
      exact .settling
    · next h =>
      rw [Bool.eq_not_of_ne h]
      exact .neutral
  · next hconst hany hall =>
    refine .itself ?_
    unfold takes
    split
    · exact (hconst _ rfl).elim
    · exact (hany _ rfl rfl).elim
    · exact (hall _ rfl rfl).elim
    · rfl

/-- Truth values are the same if a connective is settled by both or by neither. -/
theorem eq_of_settling_iff {v w : Bool} (h : v = k.settling ↔ w = k.settling) : v = w := by
  cases k with
  | any => exact Bool.eq_iff_iff.mpr h
  | all => exact Bool.not_inj (Bool.coe_false_iff_false.mp h)

variable (x : Int64)

theorem condition_holds_iff :
    (k.condition cs).holds x = k.settling ↔ ∃ c ∈ cs, c.holds x = k.settling := by
  cases k with
  | any =>
    show Condition.someHolds x cs = true ↔ ∃ c ∈ cs, c.holds x = true
    rw [Condition.someHolds_eq_any, List.any_eq_true]
  | all =>
    show Condition.eachHolds x cs = false ↔ ∃ c ∈ cs, c.holds x = false
    rw [Condition.eachHolds_eq_all, List.all_eq_false]
    simp only [Bool.not_eq_true]

theorem build_holds_iff :
    (k.build cs).holds x = k.settling ↔ ∃ c ∈ cs, c.holds x = k.settling := by
  unfold build
  split
  · exact iff_of_false (Bool.not_eq_self _).mp (by simp)
  · next c => simp
  · exact condition_holds_iff x

/-- What is added settles the whole exactly where the condition does. -/
theorem Adds.holds_iff {added : Option (List Condition)} (h : k.Adds c added) :
    c.holds x = k.settling ↔ ∀ cs ∈ added, ∃ d ∈ cs, d.holds x = k.settling := by
  cases h with
  | settling => exact iff_of_true rfl nofun
  | neutral => exact iff_of_false (Bool.not_eq_self _).mp (by simp)
  | members inner => simp [condition_holds_iff]
  | itself => simp

/-- Two conditions under a connective settle it if one of them does. -/
theorem join_holds_iff (a b : Condition) :
    (k.join a b).holds x = k.settling ↔ a.holds x = k.settling ∨ b.holds x = k.settling := by
  rw [(k.adds_members? a).holds_iff x, (k.adds_members? b).holds_iff x]
  unfold join
  split
  · next first second ha hb =>
    rw [build_holds_iff, ha, hb]
    simp only [List.mem_append, Option.mem_some_iff, forall_eq', or_and_right, exists_or]
  · next h =>
    refine iff_of_true rfl ?_
    cases ha : k.members? a with
    | none => exact .inl nofun
    | some first =>
      cases hb : k.members? b with
      | none => exact .inr nofun
      | some second => exact absurd hb (h first second ha)

end Connective

namespace Condition

variable (x : Int64)

/-! ### Connectives -/

theorem negate_holds (c : Condition) : c.negate.holds x = !c.holds x := by
  unfold negate
  split
  · rfl
  · next operand => exact (Bool.not_not _).symm
  · rfl

theorem either_holds (a b : Condition) : (a.either b).holds x = (a.holds x || b.holds x) :=
  Connective.eq_of_settling_iff (k := .any)
    ((Connective.join_holds_iff x a b).trans Bool.or_eq_true_iff.symm)

theorem both_holds (a b : Condition) : (a.both b).holds x = (a.holds x && b.holds x) :=
  Connective.eq_of_settling_iff (k := .all)
    ((Connective.join_holds_iff x a b).trans Bool.and_eq_false_iff.symm)

theorem iff_holds (a b : Condition) : (a.iff b).holds x = (a.holds x == b.holds x) := by
  have htrue (c : Condition) : c.holds x = ((const true).holds x == c.holds x) :=
    (Bool.true_beq _).symm
  have hfalse (c : Condition) : c.negate.holds x = ((const false).holds x == c.holds x) :=
    (negate_holds x c).trans (Bool.false_beq _).symm
  unfold Condition.iff
  split
  · rfl
  · exact htrue _
  · exact (htrue _).trans Bool.beq_comm
  · exact hfalse _
  · exact (hfalse _).trans Bool.beq_comm
  · rw [either_holds, both_holds, both_holds, negate_holds, negate_holds]
    cases a.holds x <;> cases b.holds x <;> rfl

/-- A comparison that does not depend on the step is decided once and for all. -/
theorem comparison_holds (op : CmpOp) (lhs rhs : StepExpr) :
    (comparison op lhs rhs).holds x = (compare op lhs rhs).holds x := by
  unfold comparison
  split
  · rfl
  · next h =>
    rw [Bool.not_eq_true, Bool.or_eq_false_iff] at h
    rw [holds.eq_def x (.compare op lhs rhs)]
    simp only [StepExpr.eval_eq_of_not_usesStep h.1 x 0,
      StepExpr.eval_eq_of_not_usesStep h.2 x 0]
    rcases lhs.eval 0 with - | a <;> rcases rhs.eval 0 with - | b <;> rfl

end Condition

end StepSequencer
