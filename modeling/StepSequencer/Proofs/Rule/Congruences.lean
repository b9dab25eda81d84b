import StepSequencer.Proofs.Rule.SimpleForm
import StepSequencer.Proofs.Rule.SplitRules

/-!
# The check of a rule reaches every congruence

`Rule.congruences` lists the congruences of a rule as they are written: a test's condition before
its two branches, and members from left to right. The check of a rule is a walk over that list
(`Rule.validate_eq_forM`), so it refuses the first congruence whose modulus is not positive,
wherever that stands.

`Rule.plainOutcome` is what a rule answers at an integer step when a congruence is divisibility and
nothing else. A rule that passed its check answers the same (`Rule.outcome_eq_plainOutcome`), as far
as nothing overflows on the way: the test for a positive modulus never decides.
-/

namespace StepSequencer

open Attempts

/-! ### The congruences of a rule -/

namespace Condition

/-- The offset and the modulus, if the condition is a congruence. -/
def congruence? : Condition → Option (Int64 × Int64)
  | .congruent offset modulus => some (offset, modulus)
  | _ => none

/-- The congruences that the condition is made of, from left to right. -/
def congruences (c : Condition) : List (Int64 × Int64) := c.parts.filterMap congruence?

/-- The congruences that the members are made of. -/
def eachCongruences (cs : List Condition) : List (Int64 × Int64) :=
  (eachParts cs).filterMap congruence?

/-- Refuses a congruence whose modulus is not positive. -/
def checkModulus (t : Int64 × Int64) : Except RuleError Unit :=
  if t.2 ≤ 0 then .error (.modulusNotPositive t.1 t.2) else .ok ()

theorem checkModulus_eq_ok_iff {t : Int64 × Int64} : checkModulus t = .ok () ↔ 0 < t.2.toInt :=
  validate_congruent_iff

theorem checkModulus_eq_error_iff {t : Int64 × Int64} {e : RuleError} :
    checkModulus t = .error e ↔ t.2.toInt ≤ 0 ∧ e = .modulusNotPositive t.1 t.2 := by
  have hsign : t.2 ≤ 0 ↔ t.2.toInt ≤ 0 := Int64.le_iff_toInt_le
  rw [checkModulus, ← hsign]
  split
  · next h => exact ⟨fun he ↦ ⟨h, (Except.error.inj he).symm⟩, fun he ↦ he.2 ▸ rfl⟩
  · next h => exact ⟨nofun, fun he ↦ absurd he.1 h⟩

mutual

/-- The check of a condition is a walk over its congruences. -/
theorem validate_eq_forM : (c : Condition) → c.validate = forM c.congruences checkModulus
  | .congruent offset modulus => by
    rw [validate]
    show _ = checkModulus (offset, modulus) >>= fun _ ↦ pure ()
    rw [checkModulus]
    split <;> rfl
  | .any members | .all members => validateEach_eq_forM members
  | .not operand => validate_eq_forM operand
  | .const _ | .equals _ | .lessThan _ | .atMost _ | .greaterThan _ | .atLeast _
  | .compare _ _ _ => rfl

theorem validateEach_eq_forM :
    (cs : List Condition) → validateEach cs = forM (eachCongruences cs) checkModulus
  | [] => rfl
  | c :: cs => by
    rw [validateEach, eachCongruences, eachParts, List.filterMap_append, List.forM_append,
      validate_eq_forM c, validateEach_eq_forM cs]
    rfl

end

end Condition

namespace Rule

/-- The congruences in the conditions of the rule, as they are written. -/
def congruences (r : Rule) : List (Int64 × Int64) := r.conditions.flatMap Condition.congruences

/-- The check of a rule is a walk over its congruences. -/
theorem validate_eq_forM (r : Rule) : r.validate = forM r.congruences Condition.checkModulus := by
  induction r with
  | answer outcome => rfl
  | test condition taken otherwise iht iho =>
    rw [validate, congruences, conditions, List.flatMap_cons, List.flatMap_append, List.forM_append,
      List.forM_append, condition.validate_eq_forM, iht, iho]
    rfl
  | rebase shift rule ih => exact ih

end Rule

/-! ### Congruences as divisibility -/

namespace Condition

mutual

/-- Whether the condition holds at an integer step, when a congruence is divisibility. -/
def plainHolds (x : Int) : Condition → Bool
  | .congruent offset modulus => decide (modulus.toInt ∣ x + offset.toInt)
  | .any members => somePlainHolds x members
  | .all members => eachPlainHolds x members
  | .not operand => !operand.plainHolds x
  | c => c.holds (Int64.ofInt x)

/-- Whether some member holds. -/
def somePlainHolds (x : Int) : List Condition → Bool
  | [] => false
  | c :: cs => c.plainHolds x || somePlainHolds x cs

/-- Whether each member holds. -/
def eachPlainHolds (x : Int) : List Condition → Bool
  | [] => true
  | c :: cs => c.plainHolds x && eachPlainHolds x cs

end

mutual

/-- No sum of the step and an offset overflows where the condition meets it. -/
def FitsAt (x : Int) : Condition → Prop
  | .congruent offset _ => Word.Holds (x + offset.toInt)
  | .any members => SomeFitsAt x members
  | .all members => EachFitsAt x members
  | .not operand => operand.FitsAt x
  | _ => True

/-- No sum overflows in the members up to the first that holds; those after it are not met. -/
def SomeFitsAt (x : Int) : List Condition → Prop
  | [] => True
  | c :: cs => c.FitsAt x ∧ (c.plainHolds x = false → SomeFitsAt x cs)

/-- No sum overflows in the members up to the first that does not hold. -/
def EachFitsAt (x : Int) : List Condition → Prop
  | [] => True
  | c :: cs => c.FitsAt x ∧ (c.plainHolds x = true → EachFitsAt x cs)

end

variable {x : Int64}

mutual

/-- A condition that passed its check holds where it holds with plain congruences. -/
theorem holds_eq_plainHolds : (c : Condition) → c.validate = .ok () → c.FitsAt x.toInt →
    c.holds x = c.plainHolds x.toInt
  | .congruent offset modulus, hvalid, hfits => by
    rw [plainHolds, Bool.eq_iff_iff, congruent_holds_iff hfits, decide_eq_true_iff]
    exact and_iff_right (validate_congruent_iff.mp hvalid)
  | .any members, hvalid, hfits => someHolds_eq_plain members hvalid hfits
  | .all members, hvalid, hfits => eachHolds_eq_plain members hvalid hfits
  | .not operand, hvalid, hfits => congrArg (!·) (holds_eq_plainHolds operand hvalid hfits)
  | .const _, _, _ | .equals _, _, _ | .lessThan _, _, _ | .atMost _, _, _ | .greaterThan _, _, _
  | .atLeast _, _, _ | .compare _ _ _, _, _ => by
    rw [plainHolds, Int64.ofInt_toInt] <;> nofun

theorem someHolds_eq_plain : (cs : List Condition) → validateEach cs = .ok () →
    SomeFitsAt x.toInt cs → someHolds x cs = somePlainHolds x.toInt cs
  | [], _, _ => rfl
  | c :: cs, hvalid, ⟨hc, hcs⟩ => by
    obtain ⟨hvc, hvcs⟩ := validateEach_cons_iff.mp hvalid
    rw [someHolds, somePlainHolds, holds_eq_plainHolds c hvc hc]
    cases hholds : c.plainHolds x.toInt with
    | true => rfl
    | false => exact someHolds_eq_plain cs hvcs (hcs hholds)

theorem eachHolds_eq_plain : (cs : List Condition) → validateEach cs = .ok () →
    EachFitsAt x.toInt cs → eachHolds x cs = eachPlainHolds x.toInt cs
  | [], _, _ => rfl
  | c :: cs, hvalid, ⟨hc, hcs⟩ => by
    obtain ⟨hvc, hvcs⟩ := validateEach_cons_iff.mp hvalid
    rw [eachHolds, eachPlainHolds, holds_eq_plainHolds c hvc hc]
    cases hholds : c.plainHolds x.toInt with
    | true => exact eachHolds_eq_plain cs hvcs (hcs hholds)
    | false => rfl

end

end Condition

namespace Rule

/-- What the rule answers at an integer step, when a congruence is divisibility. -/
def plainOutcome (x : Int) : Rule → Outcome
  | .answer outcome => outcome
  | .test condition taken otherwise =>
    if condition.plainHolds x then taken.plainOutcome x else otherwise.plainOutcome x
  | .rebase shift rule => rule.plainOutcome (x - shift.toInt)

/-- Neither a shifted step nor the sum of the step and an offset overflows where the rule meets
it. -/
def FitsAt (x : Int) : Rule → Prop
  | .answer _ => True
  | .test condition taken otherwise =>
    condition.FitsAt x ∧ if condition.plainHolds x then taken.FitsAt x else otherwise.FitsAt x
  | .rebase shift rule => Word.Holds (x - shift.toInt) ∧ rule.FitsAt (x - shift.toInt)

/-- A rule that passed its check answers what it answers with plain congruences. -/
theorem outcome_eq_plainOutcome {r : Rule} {x : Int64} (hvalid : r.validate = .ok ())
    (hfits : r.FitsAt x.toInt) : r.outcome x = r.plainOutcome x.toInt := by
  induction r generalizing x with
  | answer outcome => rfl
  | test condition taken otherwise iht iho =>
    obtain ⟨hcondition, htaken, hotherwise⟩ := validate_test_iff.mp hvalid
    obtain ⟨hmet, hbranch⟩ := hfits
    rw [outcome, plainOutcome, condition.holds_eq_plainHolds hcondition hmet]
    split at hbranch
    · next h => rw [if_pos h, if_pos h, iht htaken hbranch]
    · next h => rw [if_neg h, if_neg h, iho hotherwise hbranch]
  | rebase shift rule ih =>
    obtain ⟨hshift, hrule⟩ := hfits
    have hstep := Word.toInt_sub hshift
    rw [outcome, plainOutcome, ← hstep]
    exact ih hvalid (hstep ▸ hrule)

/-- **Every congruence is checked.** A rule passes exactly if the moduli of all its congruences are
positive, in both branches of each test and under each shift, and else is refused for the first one
that is not. What passes answers as if a congruence were divisibility and nothing else. -/
theorem validate_reaches (r : Rule) :
    (r.validate = .ok () ↔ ∀ t ∈ r.congruences, 0 < t.2.toInt) ∧
    (∀ e, r.validate = .error e ↔ ∃ before offset modulus after,
      r.congruences = before ++ (offset, modulus) :: after ∧ (∀ t ∈ before, 0 < t.2.toInt) ∧
      modulus.toInt ≤ 0 ∧ e = .modulusNotPositive offset modulus) ∧
    (r.validate = .ok () →
      ∀ x : Int64, r.FitsAt x.toInt → r.outcome x = r.plainOutcome x.toInt) := by
  refine ⟨?_, fun e ↦ ?_, fun hvalid x hfits ↦ outcome_eq_plainOutcome hvalid hfits⟩
  · rw [validate_eq_forM, forM_eq_ok_iff]
    simp only [Condition.checkModulus_eq_ok_iff]
  · rw [validate_eq_forM, forM_eq_error_iff]
    simp only [Condition.checkModulus_eq_ok_iff, Condition.checkModulus_eq_error_iff, Prod.exists]

/-- Congruences under a negation, a disjunction and a shift; and a rule whose second congruence, in
its first branch, has the modulus zero, and whose third has a negative one. The step 33 is shifted
to -18, and 7 divides the sum of that and 4. -/
theorem validate_reaches_nested :
    let sound : Rule := .test (.not (.any [.equals 3, .congruent 1 4]))
      (.rebase 51 (.test (.all [.congruent 4 7]) always never)) never
    let faulty : Rule := .test (.congruent 0 2)
      (.rebase 1 (.test (.not (.congruent 3 0)) always never))
      (.test (.congruent 5 (-2)) always never)
    (sound.validate = .ok () ∧ ∀ t ∈ sound.congruences, 0 < t.2.toInt) ∧
    (sound.FitsAt (33 : Int64).toInt ∧ sound.outcome 33 = sound.plainOutcome (33 : Int64).toInt ∧
      sound.outcome 33 = .true) ∧
    faulty.validate = .error (.modulusNotPositive 3 0) := by
  intro sound faulty
  obtain ⟨hsound, -, hplain⟩ := validate_reaches sound
  obtain ⟨-, hfaulty, -⟩ := validate_reaches faulty
  have hvalid : sound.validate = .ok () := rfl
  have hsum : Word.Holds ((33 : Int64).toInt + (1 : Int64).toInt) := by decide
  have hshifted : Word.Holds ((33 : Int64).toInt - (51 : Int64).toInt + (4 : Int64).toInt) := by
    decide
  have hfits : sound.FitsAt (33 : Int64).toInt := by
    refine ⟨⟨trivial, fun _ ↦ ⟨hsum, fun _ ↦ trivial⟩⟩, ?_⟩
    rw [if_pos (by decide)]
    refine ⟨by decide, ⟨hshifted, fun _ ↦ trivial⟩, ?_⟩
    rw [if_pos (by decide)]
    trivial
  have hfirst : ∀ t ∈ [((0 : Int64), (2 : Int64))], 0 < t.2.toInt :=
    List.forall_mem_singleton.mpr (by decide)
  exact ⟨⟨hvalid, hsound.mp hvalid⟩, ⟨hfits, hplain hvalid 33 hfits, by decide⟩,
    (hfaulty _).mpr ⟨[(0, 2)], 3, 0, [(5, -2)], rfl, hfirst, by decide, rfl⟩⟩

end Rule

end StepSequencer
