import StepSequencer.Proofs.Attempts
import StepSequencer.Proofs.Number.Words
import StepSequencer.Rule.Basic

/-!
# Which rules are accepted

The check of a condition and of a rule, part by part: each accepts exactly if it accepts the parts,
and a congruence is accepted if its modulus is positive.
-/

namespace StepSequencer

open Attempts

namespace Condition

/-- A congruence passes its check if its modulus is positive. -/
theorem validate_congruent_iff {offset modulus : Int64} :
    (congruent offset modulus).validate = .ok () ↔ 0 < modulus.toInt := by
  rw [validate, ← Word.pos_iff]
  split
  · next h =>
    refine iff_of_false ?_ (Int64.not_lt.mpr h)
    rintro ⟨⟩
  · next h => exact iff_of_true rfl (Int64.not_le.mp h)

/-- Members pass their checks if the first one and the others do. -/
theorem validateEach_cons_iff {c : Condition} {cs : List Condition} :
    validateEach (c :: cs) = .ok () ↔ c.validate = .ok () ∧ validateEach cs = .ok () := by
  rw [validateEach, bind_eq_ok_iff]
  constructor
  · rintro ⟨_, hc, hcs⟩
    exact ⟨hc, hcs⟩
  · rintro ⟨hc, hcs⟩
    exact ⟨(), hc, hcs⟩

/-- Members pass their checks if each of them does. -/
theorem validateEach_eq_ok_iff {cs : List Condition} :
    validateEach cs = .ok () ↔ ∀ c ∈ cs, c.validate = .ok () := by
  induction cs with
  | nil => exact iff_of_true rfl (List.forall_mem_nil _)
  | cons c cs ih => rw [validateEach_cons_iff, List.forall_mem_cons, ih]

end Condition

namespace Rule

/-- A test passes its check if its condition and both its branches do. -/
theorem validate_test_iff {condition : Condition} {taken otherwise : Rule} :
    (test condition taken otherwise).validate = .ok () ↔
      condition.validate = .ok () ∧ taken.validate = .ok () ∧ otherwise.validate = .ok () := by
  rw [validate, bind_eq_ok_iff]
  constructor
  · rintro ⟨_, hcondition, h⟩
    obtain ⟨_, htaken, hotherwise⟩ := bind_eq_ok_iff.mp h
    exact ⟨hcondition, htaken, hotherwise⟩
  · rintro ⟨hcondition, htaken, hotherwise⟩
    exact ⟨(), hcondition, bind_eq_ok_iff.mpr ⟨(), htaken, hotherwise⟩⟩

end Rule

end StepSequencer
