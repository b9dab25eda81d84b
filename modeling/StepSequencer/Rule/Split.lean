import StepSequencer.Rule.Basic

/-!
# Split rules

The usual shape of a rule: the steps are split at a threshold, the later part is counted back by the
length of the range, and each part is tested against a set of congruences.
-/

namespace StepSequencer

/-- Congruences `(offset, modulus)`, any of which is a hit, and whether a hit means silence. -/
structure CongruenceSet where
  terms : List (Int64 × Int64)
  invert : Bool
  deriving DecidableEq

namespace CongruenceSet

/-- The set that no step hits. -/
def never : CongruenceSet := ⟨[], false⟩

/-- The set that the steps of any of the terms hit. -/
def any (terms : List (Int64 × Int64)) : CongruenceSet := ⟨terms, false⟩

/-- The set with hits and misses exchanged. -/
def inverted (s : CongruenceSet) : CongruenceSet := ⟨s.terms, !s.invert⟩

/-- The rule that fires on the set. Without terms only a miss is possible. -/
def toRule (s : CongruenceSet) : Rule :=
  if s.terms.isEmpty then .answer (.ofBool s.invert)
  else .test (.anyCongruent s.terms) (.answer (.ofBool !s.invert)) (.answer (.ofBool s.invert))

end CongruenceSet

/-- Steps below the threshold are tested against `before`; the others are counted back by `length`
and tested against `after`. -/
def Rule.split (threshold length : Int64) (before after : CongruenceSet) : Rule :=
  .test (.lessThan threshold) before.toRule (.rebase length after.toRule)

end StepSequencer
