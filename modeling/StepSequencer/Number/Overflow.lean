/-!
# Results that no word holds

Arithmetic on words is checked as a rule: an operation without a result says so, and its caller
decides what takes over. In a few places the result is taken for granted. Where no word holds it
there, nobody decides anything: the whole program is aborted.

So a computation can end without a result in two ways, and `Halt` keeps them apart. A refusal has a
cause, which callers put into their contexts and show. An abort passes all of them.
-/

namespace StepSequencer

/-- An operation on words that has no result where one is taken for granted. -/
inductive Overflow where
  | addition
  | multiplication
  | negation
  deriving DecidableEq

/-- What is said of the operation when the program is aborted. -/
def Overflow.message : Overflow → String
  | .addition => "attempt to add with overflow"
  | .multiplication => "attempt to multiply with overflow"
  | .negation => "attempt to negate with overflow"

/-- How a computation ends that has no result. -/
inductive Halt (ε : Type) where
  /-- It gives up, and its caller is told why. -/
  | refused (cause : ε)
  /-- The program is aborted. -/
  | aborted (cause : Overflow)
  deriving DecidableEq

namespace Halt

variable {ε δ : Type}

/-- The end as it is seen further out: the cause of a refusal is put into a context. -/
def map (context : ε → δ) : Halt ε → Halt δ
  | .refused cause => .refused (context cause)
  | .aborted cause => .aborted cause

/-- What is refused within a context was refused there, as a context makes no abort a refusal. -/
theorem map_eq_refused_iff {context : ε → δ} {h : Halt ε} {e : δ} :
    h.map context = .refused e ↔ ∃ cause, h = .refused cause ∧ context cause = e := by
  cases h <;> simp [map]

end Halt

end StepSequencer
