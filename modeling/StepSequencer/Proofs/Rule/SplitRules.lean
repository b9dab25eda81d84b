import StepSequencer.Proofs.Rule.Validation
import StepSequencer.Rule.Split

/-!
# Split rules decide by their congruences

A split rule asks one of its two sets about a step: the first one about the step itself, the second
one about the step less the length of the range. The set is hit where one of its terms, with a
positive modulus, divides the sum of the place and its offset, and the rule fires on the hits of a
plain set and on the misses of an inverted one.

The rule is built in three shapes, for no term, for one and for more. `anyCongruent_holds` brings
them together, and after it only the members of the list of terms matter. `split_decides` compares
the rule, whose step and sums are words that wrap, with places that are integers.
-/

namespace StepSequencer

/-! ### Disjunctions of congruences -/

namespace Condition

/-- Where the sum fits a word, a congruence is divisibility by a positive modulus. -/
theorem congruent_holds_iff {x offset modulus : Int64} (h : Word.Holds (x.toInt + offset.toInt)) :
    (congruent offset modulus).holds x = true ↔
      0 < modulus.toInt ∧ modulus.toInt ∣ x.toInt + offset.toInt := by
  rw [holds, Word.toInt_add h, Bool.and_eq_true, decide_eq_true_iff, Word.pos_iff, beq_iff_eq,
    Int.dvd_iff_emod_eq_zero]

/-- However many terms there are, the disjunction holds where one of them does. -/
theorem anyCongruent_holds (terms : List (Int64 × Int64)) (x : Int64) :
    (anyCongruent terms).holds x = terms.any fun t ↦ (congruent t.1 t.2).holds x := by
  rcases terms with - | ⟨t, - | ⟨u, terms⟩⟩
  · rfl
  · exact (Bool.or_false _).symm
  · show someHolds x ((t :: u :: terms).map fun t ↦ congruent t.1 t.2) = _
    rw [someHolds_eq_any, List.any_map]
    rfl

theorem validate_anyCongruent_iff (terms : List (Int64 × Int64)) :
    (anyCongruent terms).validate = .ok () ↔ ∀ t ∈ terms, 0 < t.2.toInt := by
  rcases terms with - | ⟨t, - | ⟨u, terms⟩⟩
  · exact iff_of_true rfl (List.forall_mem_nil _)
  · rw [List.forall_mem_singleton]
    exact validate_congruent_iff
  · show validateEach ((t :: u :: terms).map fun t ↦ congruent t.1 t.2) = .ok () ↔ _
    rw [validateEach_eq_ok_iff, List.forall_mem_map]
    simp only [validate_congruent_iff]

end Condition

/-! ### The rule of a set -/

namespace CongruenceSet

/-- A term with a positive modulus divides the sum of the place and its offset. -/
def IsHit (s : CongruenceSet) (place : Int) : Prop :=
  ∃ t ∈ s.terms, 0 < t.2.toInt ∧ t.2.toInt ∣ place + t.1.toInt

instance (s : CongruenceSet) (place : Int) : Decidable (s.IsHit place) :=
  s.terms.decidableBEx _

/-- Whether the set fires at a place: on the hits, or on the misses if it is inverted. -/
def firesAt (s : CongruenceSet) (place : Int) : Bool := s.invert ^^ decide (s.IsHit place)

/-- The place and its sums with the offsets of the terms fit a word. -/
def FitsAt (s : CongruenceSet) (place : Int) : Prop :=
  ∀ t ∈ s.terms, Word.Holds place ∧ Word.Holds (place + t.1.toInt)

instance (s : CongruenceSet) (place : Int) : Decidable (s.FitsAt place) :=
  s.terms.decidableBAll _

/-- The sets have the same terms, in whatever order and however often, and both answer a hit in the
same way. -/
def Agrees (s s' : CongruenceSet) : Prop := (∀ t, t ∈ s.terms ↔ t ∈ s'.terms) ∧ s.invert = s'.invert

/-- The rule answers a hit with the opposite of a miss, whatever its shape. -/
theorem toRule_fires (s : CongruenceSet) (x : Int64) :
    s.toRule.fires x = (s.invert ^^ s.terms.any fun t ↦ (Condition.congruent t.1 t.2).holds x) := by
  have hanswer (b : Bool) : (Outcome.ofBool b).isTruthy = b := by cases b <;> rfl
  rw [toRule]
  split
  · next h =>
    rw [List.isEmpty_iff.mp h, List.any_nil, Bool.xor_false]
    exact hanswer s.invert
  · rw [Rule.fires, Rule.outcome, Condition.anyCongruent_holds]
    split
    · next hhit =>
      rw [hhit, Bool.xor_true]
      exact hanswer _
    · next hmiss =>
      rw [Bool.eq_false_iff.mpr hmiss, Bool.xor_false]
      exact hanswer _

/-- Where nothing overflows, the rule fires where its set does. -/
theorem toRule_fires_of_fits {s : CongruenceSet} {x : Int64} {place : Int}
    (hplace : s.terms ≠ [] → x.toInt = place) (h : s.FitsAt place) :
    s.toRule.fires x = s.firesAt place := by
  have hhit : (s.terms.any fun t ↦ (Condition.congruent t.1 t.2).holds x) =
      decide (s.IsHit place) := by
    rw [Bool.eq_iff_iff, List.any_eq_true, decide_eq_true_iff, IsHit]
    refine exists_congr fun t ↦ and_congr_right fun ht ↦ ?_
    obtain rfl := hplace (List.ne_nil_of_mem ht)
    exact Condition.congruent_holds_iff (h t ht).2
  rw [toRule_fires, hhit, firesAt]

/-- The rule depends on nothing but which terms there are. -/
theorem Agrees.toRule_fires {s s' : CongruenceSet} (h : s.Agrees s') (x : Int64) :
    s.toRule.fires x = s'.toRule.fires x := by
  have hterms : (s.terms.any fun t ↦ (Condition.congruent t.1 t.2).holds x) =
      s'.terms.any fun t ↦ (Condition.congruent t.1 t.2).holds x := by
    rw [Bool.eq_iff_iff, List.any_eq_true, List.any_eq_true]
    exact exists_congr fun t ↦ and_congr_left fun _ ↦ h.1 t
  rw [CongruenceSet.toRule_fires, CongruenceSet.toRule_fires, hterms, h.2]

theorem validate_toRule_iff (s : CongruenceSet) :
    s.toRule.validate = .ok () ↔ ∀ t ∈ s.terms, 0 < t.2.toInt := by
  rw [toRule]
  split
  · next h =>
    rw [List.isEmpty_iff.mp h]
    exact iff_of_true rfl (List.forall_mem_nil _)
  · rw [Rule.validate_test_iff, Condition.validate_anyCongruent_iff]
    exact and_iff_left ⟨rfl, rfl⟩

end CongruenceSet

/-! ### Split rules -/

namespace Rule

variable {threshold length step : Int64} {before after : CongruenceSet}

theorem split_fires_below (h : step < threshold) :
    (split threshold length before after).fires step = before.toRule.fires step := by
  rw [fires, split, outcome, Condition.holds, if_pos (decide_eq_true h), fires]

theorem split_fires_beyond (h : threshold ≤ step) :
    (split threshold length before after).fires step = after.toRule.fires (step - length) := by
  rw [fires, split, outcome, Condition.holds, if_neg, outcome, fires]
  rw [decide_eq_true_iff]
  exact Int64.not_lt.mpr h

theorem validate_split_iff : (split threshold length before after).validate = .ok () ↔
    before.toRule.validate = .ok () ∧ after.toRule.validate = .ok () := by
  rw [split, validate_test_iff]
  exact and_iff_right rfl

/-- **Split rules.** Below the threshold the first set decides on the step, and from it on the second
set decides on the step less the length of the range. The order of the terms and their repetitions do
not matter, and the rule is accepted when all moduli are positive. -/
theorem split_decides (threshold length : Int64) (before after : CongruenceSet) :
    (∀ step, step < threshold → before.FitsAt step.toInt →
      (split threshold length before after).fires step = before.firesAt step.toInt) ∧
    (∀ step, threshold ≤ step → after.FitsAt (step.toInt - length.toInt) →
      (split threshold length before after).fires step =
        after.firesAt (step.toInt - length.toInt)) ∧
    (before.terms = [] → ∀ step < threshold,
      (split threshold length before after).fires step = before.invert) ∧
    (after.terms = [] → ∀ step ≥ threshold,
      (split threshold length before after).fires step = after.invert) ∧
    (∀ before' after', before.Agrees before' → after.Agrees after' → ∀ step,
      (split threshold length before after).fires step =
        (split threshold length before' after').fires step) ∧
    ((split threshold length before after).validate = .ok () ↔
      ∀ t ∈ before.terms ++ after.terms, 0 < t.2.toInt) := by
  refine ⟨fun step hbelow hfits ↦ ?_, fun step hbeyond hfits ↦ ?_, fun hempty step hbelow ↦ ?_,
    fun hempty step hbeyond ↦ ?_, fun before' after' hbefore hafter step ↦ ?_, ?_⟩
  · rw [split_fires_below hbelow, before.toRule_fires_of_fits (fun _ ↦ rfl) hfits]
  · -- only a term tells that the rebased step did not wrap; without terms it does not matter
    have hplace (hne : after.terms ≠ []) : (step - length).toInt = step.toInt - length.toInt := by
      obtain ⟨t, ht⟩ := List.exists_mem_of_ne_nil _ hne
      exact Word.toInt_sub (hfits t ht).1
    rw [split_fires_beyond hbeyond, after.toRule_fires_of_fits hplace hfits]
  · rw [split_fires_below hbelow, before.toRule_fires, hempty, List.any_nil, Bool.xor_false]
  · rw [split_fires_beyond hbeyond, after.toRule_fires, hempty, List.any_nil, Bool.xor_false]
  · rcases Int64.lt_or_le step threshold with hbelow | hbeyond
    · rw [split_fires_below hbelow, split_fires_below hbelow, hbefore.toRule_fires]
    · rw [split_fires_beyond hbeyond, split_fires_beyond hbeyond, hafter.toRule_fires]
  · rw [List.forall_mem_append, ← before.validate_toRule_iff, ← after.validate_toRule_iff]
    exact validate_split_iff

/-- A plain set in two spellings, and an inverted one with a modulus of zero; the step 33 is counted
back to -18, which 7 divides after adding 4. -/
theorem split_decides_rebased :
    let before : CongruenceSet := .any [(1, 8), (0, 5)]
    let again : CongruenceSet := .any [(0, 5), (1, 8), (0, 5)]
    let after : CongruenceSet := (CongruenceSet.any [(4, 7), (3, 0)]).inverted
    ((7 : Int64) < 27 ∧ before.FitsAt 7 ∧ (split 27 51 before after).fires 7 = true) ∧
    ((27 : Int64) ≤ 33 ∧ after.FitsAt (33 - 51) ∧ (split 27 51 before after).fires 33 = false) ∧
    ((split 27 51 .never .never).fires 7 = false ∧ (split 27 51 .never .never).fires 33 = false) ∧
    (before.Agrees again ∧ after.Agrees after ∧
      (split 27 51 before after).fires 12 = (split 27 51 again after).fires 12) ∧
    (split 27 51 before after).validate ≠ .ok () := by
  intro before again after
  obtain ⟨hbelow, hbeyond, -, -, hagrees, hvalid⟩ := split_decides 27 51 before after
  obtain ⟨-, -, hfirst, hsecond, -, -⟩ := split_decides 27 51 .never .never
  have hbefore : before.FitsAt 7 := by decide
  have hafter : after.FitsAt (33 - 51) := by decide
  have hagain : before.Agrees again := by
    refine ⟨fun t ↦ ?_, rfl⟩
    simp only [before, again, CongruenceSet.any, List.mem_cons]
    grind
  have hsame : after.Agrees after := ⟨fun _ ↦ .rfl, rfl⟩
  refine ⟨⟨by decide, hbefore, (hbelow 7 (by decide) hbefore).trans (by decide)⟩,
    ⟨by decide, hafter, (hbeyond 33 (by decide) hafter).trans (by decide)⟩,
    ⟨hfirst rfl 7 (by decide), hsecond rfl 33 (by decide)⟩,
    ⟨hagain, hsame, hagrees again after hagain hsame 12⟩, ?_⟩
  rw [ne_eq, hvalid]
  exact fun hpositive ↦ absurd (hpositive (3, 0) (List.mem_of_getElem? (i := 3) rfl)) (by decide)

end Rule

end StepSequencer
