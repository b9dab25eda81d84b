import StepSequencer.Proofs.Rule.Simplify
import StepSequencer.Rule.Basic

/-!
# Rules with nothing left to simplify

`Condition.IsSimple P` says that no connective of a condition can be simplified, that its congruences
have positive moduli, and that its comparisons have the property `P`. Simplified connectives of simple
conditions are simple (`isSimple_negate`, `Connective.isSimple_join`, `isSimple_iff`), whatever the
property is. Disjunctions and conjunctions are treated as one: what is said of a `Connective` holds of
both.

`Condition.IsReduced` says what simple means for a single condition, and `Condition.parts` and
`StepExpr.parts` list all that a condition and an expression are made of. A simple condition of folded
comparisons is reduced in all of its parts (`isReduced_of_isSimple`), and a simple rule passes its check.
-/

namespace StepSequencer

/-! ### Folded arithmetic -/

namespace StepExpr

/-- Each part without the step is a constant, unless it has no value. -/
def IsFolded : StepExpr → Prop
  | .neg operand => operand.IsFolded ∧ (neg operand).folded = neg operand
  | .binary op lhs rhs =>
    lhs.IsFolded ∧ rhs.IsFolded ∧ (binary op lhs rhs).folded = binary op lhs rhs
  | _ => True

/-- The expression and all that it is made of. -/
def parts : StepExpr → List StepExpr
  | .neg operand => .neg operand :: operand.parts
  | .binary op lhs rhs => .binary op lhs rhs :: (lhs.parts ++ rhs.parts)
  | e => [e]

variable {e : StepExpr}

/-- Folding leaves an expression as it is, or makes it a constant. -/
theorem folded_eq_or (e : StepExpr) :
    e.folded = e ∨ ∃ v, e.usesStep = false ∧ e.eval 0 = some v ∧ e.folded = .const v := by
  unfold folded
  split
  · exact .inl rfl
  · next huses =>
    split
    · next v hv => exact .inr ⟨v, Bool.not_eq_true _ ▸ huses, hv, rfl⟩
    · exact .inl rfl

theorem isFolded_folded (h : e.folded = e → e.IsFolded) : e.folded.IsFolded := by
  rcases e.folded_eq_or with heq | ⟨v, -, -, heq⟩
  · rw [heq]
    exact h heq
  · rw [heq]
    trivial

theorem IsFolded.folded_eq (h : e.IsFolded) : e.folded = e := by
  cases e with
  | step | const => rfl
  | neg operand => exact h.2
  | binary op lhs rhs => exact h.2.2

/-- A folded expression with a value at all steps is that value. -/
theorem IsFolded.eq_const (h : e.IsFolded) (huses : e.usesStep = false) {v : Num}
    (hv : e.eval 0 = some v) : e = .const v := by
  have hfolded := h.folded_eq
  rw [folded, if_neg (by simp [huses]), hv] at hfolded
  exact hfolded.symm

theorem IsFolded.of_mem_parts (h : e.IsFolded) : ∀ s ∈ e.parts, s.IsFolded := by
  induction e with
  | step | const => exact List.forall_mem_singleton.mpr h
  | neg operand ih => exact List.forall_mem_cons.mpr ⟨h, ih h.1⟩
  | binary op lhs rhs ihl ihr =>
    exact List.forall_mem_cons.mpr ⟨h, List.forall_mem_append.mpr ⟨ihl h.1, ihr h.2.1⟩⟩

/-- Where a part of a folded expression has a value without the step, it is that constant. -/
theorem IsFolded.eq_const_of_mem_parts (h : e.IsFolded) {s : StepExpr} (hs : s ∈ e.parts)
    (huses : s.usesStep = false) {x : Int64} {v : Num} (hv : s.eval x = some v) : s = .const v := by
  rw [eval_eq_of_not_usesStep huses x 0] at hv
  exact (h.of_mem_parts s hs).eq_const huses hv

end StepExpr

/-! ### Simple conditions and rules -/

namespace Condition

/-- Whether the condition stays as it is under a negation. -/
def isNegatable : Condition → Bool
  | .const _ | .not _ => false
  | _ => true

variable (P : CmpOp → StepExpr → StepExpr → Prop)

mutual

/-- Nothing in the condition is left to simplify, and its comparisons have the property. -/
def IsSimple : Condition → Prop
  | .congruent _ modulus => 0 < modulus
  | .compare op lhs rhs => P op lhs rhs
  | .any members =>
    2 ≤ members.length ∧ members.all Connective.any.takes = true ∧ EachSimple members
  | .all members =>
    2 ≤ members.length ∧ members.all Connective.all.takes = true ∧ EachSimple members
  | .not operand => operand.isNegatable = true ∧ operand.IsSimple
  | _ => True

/-- Nothing in the members is left to simplify. -/
def EachSimple : List Condition → Prop
  | [] => True
  | c :: cs => c.IsSimple ∧ EachSimple cs

end

variable {P}

theorem eachSimple_iff {cs : List Condition} : EachSimple P cs ↔ ∀ c ∈ cs, c.IsSimple P := by
  induction cs with
  | nil => simp [EachSimple]
  | cons c cs ih => rw [EachSimple, ih, List.forall_mem_cons]

end Condition

/-- Nothing in the conditions of the rule is left to simplify, none of them is constant, and their
comparisons have the property. -/
def Rule.IsSimple (P : CmpOp → StepExpr → StepExpr → Prop) : Rule → Prop
  | .answer _ => True
  | .test condition taken otherwise =>
    (∀ value, condition ≠ .const value) ∧ condition.IsSimple P ∧ taken.IsSimple P ∧
      otherwise.IsSimple P
  | .rebase _ rule => rule.IsSimple P

/-! ### Connectives -/

namespace Connective

variable {P : CmpOp → StepExpr → StepExpr → Prop} {k : Connective} {a b c : Condition}
  {cs : List Condition}

theorem isSimple_condition_iff : (k.condition cs).IsSimple P ↔
    2 ≤ cs.length ∧ cs.all k.takes = true ∧ ∀ c ∈ cs, c.IsSimple P := by
  rw [← Condition.eachSimple_iff]
  cases k <;> exact Iff.rfl

theorem isSimple_build (hcs : cs.all k.takes = true) (h : ∀ c ∈ cs, c.IsSimple P) :
    (k.build cs).IsSimple P := by
  unfold build
  split
  · trivial
  · next c => exact h c (List.mem_singleton_self c)
  · next hnil hone =>
    refine isSimple_condition_iff.mpr ⟨?_, hcs, h⟩
    rcases cs with - | ⟨c, - | ⟨d, cs⟩⟩
    · exact absurd rfl hnil
    · exact absurd rfl (hone c)
    · simp

/-- What a simple condition adds to the members of a connective. -/
theorem Adds.isSimple {added : Option (List Condition)} (hadds : k.Adds c added)
    (h : c.IsSimple P) : ∀ cs ∈ added, cs.all k.takes = true ∧ ∀ d ∈ cs, d.IsSimple P := by
  rintro cs rfl
  cases hadds with
  | neutral => exact ⟨rfl, List.forall_mem_nil _⟩
  | members => exact (isSimple_condition_iff.mp h).2
  | itself htakes =>
    refine ⟨?_, List.forall_mem_singleton.mpr h⟩
    rw [List.all_cons, htakes, List.all_nil, Bool.and_self]

/-- **Two simple conditions** under a connective. -/
theorem isSimple_join (ha : a.IsSimple P) (hb : b.IsSimple P) : (k.join a b).IsSimple P := by
  unfold join
  split
  · next first second hfirst hsecond =>
    obtain ⟨hfirst, hfirstsimple⟩ := (k.adds_members? a).isSimple ha first hfirst
    obtain ⟨hsecond, hsecondsimple⟩ := (k.adds_members? b).isSimple hb second hsecond
    refine isSimple_build ?_ (List.forall_mem_append.mpr ⟨hfirstsimple, hsecondsimple⟩)
    rw [List.all_append, hfirst, hsecond, Bool.and_self]
  · trivial

end Connective

namespace Condition

variable {P : CmpOp → StepExpr → StepExpr → Prop} {a b c : Condition}

theorem isSimple_negate (h : c.IsSimple P) : c.negate.IsSimple P := by
  unfold negate
  split
  · trivial
  · exact h.2
  · next hconst hnot =>
    refine ⟨?_, h⟩
    unfold isNegatable
    split
    · exact absurd rfl (hconst _)
    · exact absurd rfl (hnot _)
    · rfl

theorem isSimple_iff (ha : a.IsSimple P) (hb : b.IsSimple P) : (a.iff b).IsSimple P := by
  unfold Condition.iff
  split
  · trivial
  · exact hb
  · exact ha
  · exact isSimple_negate hb
  · exact isSimple_negate ha
  · have hneither : (a.negate.both b.negate).IsSimple P :=
      Connective.isSimple_join (isSimple_negate ha) (isSimple_negate hb)
    exact Connective.isSimple_join (Connective.isSimple_join ha hb) hneither

end Condition

/-! ### Parts of conditions and of rules -/

namespace Condition

mutual

/-- The condition and all the conditions that it is made of. -/
def parts : Condition → List Condition
  | .any members => .any members :: eachParts members
  | .all members => .all members :: eachParts members
  | .not operand => .not operand :: operand.parts
  | c => [c]

/-- All the conditions that the members are made of. -/
def eachParts : List Condition → List Condition
  | [] => []
  | c :: cs => c.parts ++ eachParts cs

end

/-- The condition itself is not left to simplify: it is no constant, its members are at least two and
of another kind, it is no negation of a negation, its modulus is positive, and it compares
expressions of which one has the step in it and each part without the step is a constant, unless it
has no value. -/
def IsReduced : Condition → Prop
  | .const _ => False
  | .congruent _ modulus => 0 < modulus
  | .compare _ lhs rhs => (lhs.usesStep = true ∨ rhs.usesStep = true) ∧
    ∀ s ∈ lhs.parts ++ rhs.parts, s.usesStep = false → ∀ x v, s.eval x = some v → s = .const v
  | .any members => 2 ≤ members.length ∧ ∀ inner, .any inner ∉ members
  | .all members => 2 ≤ members.length ∧ ∀ inner, .all inner ∉ members
  | .not operand => ∀ inner, operand ≠ .not inner
  | _ => True

/-- The step is in one of the sides, and what is not is folded. -/
def IsFoldedComparison (_ : CmpOp) (lhs rhs : StepExpr) : Prop :=
  lhs.IsFolded ∧ rhs.IsFolded ∧ (lhs.usesStep || rhs.usesStep) = true

theorem isReduced_compare {op : CmpOp} {lhs rhs : StepExpr} (h : IsFoldedComparison op lhs rhs) :
    (compare op lhs rhs).IsReduced := by
  obtain ⟨hl, hr, huses⟩ := h
  refine ⟨Bool.or_eq_true_iff.mp huses, fun s hs huses x v hv ↦ ?_⟩
  rcases List.mem_append.mp hs with hs | hs
  · exact hl.eq_const_of_mem_parts hs huses hv
  · exact hr.eq_const_of_mem_parts hs huses hv

theorem takes_ne_const {k : Connective} {c : Condition} (h : k.takes c = true) (value : Bool) :
    c ≠ .const value := by
  rintro rfl
  cases k <;> cases h

/-- No member of a connective is made by the same connective. -/
theorem condition_notMem {k : Connective} {cs : List Condition} (h : cs.all k.takes = true)
    (inner : List Condition) : k.condition inner ∉ cs := by
  intro hinner
  have htakes := List.all_eq_true.mp h _ hinner
  cases k <;> cases htakes

theorem isNegatable_ne_const {c : Condition} (h : c.isNegatable = true) (value : Bool) :
    c ≠ .const value := by
  rintro rfl
  cases h

mutual

/-- **All parts of a simple condition** that is not constant are reduced. -/
theorem isReduced_of_isSimple : (c : Condition) → c.IsSimple IsFoldedComparison →
    (∀ value, c ≠ .const value) → ∀ d ∈ c.parts, d.IsReduced
  | .const value, _, hconst => absurd rfl (hconst value)
  | .congruent _ _, h, _ => List.forall_mem_singleton.mpr h
  | .equals _, _, _ | .lessThan _, _, _ | .atMost _, _, _ | .greaterThan _, _, _
  | .atLeast _, _, _ => List.forall_mem_singleton.mpr trivial
  | .compare _ _ _, h, _ => List.forall_mem_singleton.mpr (isReduced_compare h)
  | .any members, h, _ | .all members, h, _ => by
    obtain ⟨hlength, htakes, hsimple⟩ := h
    refine List.forall_mem_cons.mpr ⟨⟨hlength, condition_notMem htakes⟩, ?_⟩
    exact eachReduced_of_isSimple members hsimple fun c hc ↦
      takes_ne_const (List.all_eq_true.mp htakes c hc)
  | .not operand, h, _ => by
    obtain ⟨hoperand, hsimple⟩ := h
    refine List.forall_mem_cons.mpr ⟨?_, ?_⟩
    · rintro inner rfl
      cases hoperand
    · exact isReduced_of_isSimple operand hsimple (isNegatable_ne_const hoperand)

/-- All parts of simple members are reduced. -/
theorem eachReduced_of_isSimple : (cs : List Condition) → EachSimple IsFoldedComparison cs →
    (∀ c ∈ cs, ∀ value, c ≠ .const value) → ∀ d ∈ eachParts cs, d.IsReduced
  | [], _, _ => List.forall_mem_nil _
  | c :: cs, h, hconst => by
    rw [List.forall_mem_cons] at hconst
    exact List.forall_mem_append.mpr ⟨isReduced_of_isSimple c h.1 hconst.1,
      eachReduced_of_isSimple cs h.2 hconst.2⟩

end

/-! ### Checks -/

variable {P : CmpOp → StepExpr → StepExpr → Prop}

mutual

/-- **A simple condition** passes its check. -/
theorem validate_of_isSimple : (c : Condition) → c.IsSimple P → c.validate = .ok ()
  | .congruent offset modulus, h => by
    have hpos : ¬modulus ≤ 0 := Int64.not_le.mpr h
    rw [validate, if_neg hpos]
  | .any members, h | .all members, h => by
    rw [validate, validateEach_of_isSimple members h.2.2]
  | .not operand, h => by rw [validate, validate_of_isSimple operand h.2]
  | .const _, _ | .equals _, _ | .lessThan _, _ | .atMost _, _ | .greaterThan _, _ | .atLeast _, _
  | .compare _ _ _, _ => by rw [validate] <;> nofun

/-- Simple members pass their checks. -/
theorem validateEach_of_isSimple : (cs : List Condition) → EachSimple P cs →
    validateEach cs = .ok ()
  | [], _ => rfl
  | c :: cs, h => by
    rw [validateEach, validate_of_isSimple c h.1]
    exact validateEach_of_isSimple cs h.2

end

end Condition

namespace Rule

variable {P : CmpOp → StepExpr → StepExpr → Prop} {r : Rule}

/-- The conditions that the rule tests. -/
def conditions : Rule → List Condition
  | .answer _ => []
  | .test condition taken otherwise => condition :: (taken.conditions ++ otherwise.conditions)
  | .rebase _ rule => rule.conditions

/-- All parts of the conditions of a simple rule are reduced. -/
theorem isReduced_of_isSimple (h : r.IsSimple Condition.IsFoldedComparison) :
    ∀ c ∈ r.conditions, ∀ d ∈ c.parts, d.IsReduced := by
  induction r with
  | answer outcome => exact List.forall_mem_nil _
  | test condition taken otherwise iht iho =>
    obtain ⟨hconst, hcondition, htaken, hotherwise⟩ := h
    exact List.forall_mem_cons.mpr ⟨Condition.isReduced_of_isSimple condition hcondition hconst,
      List.forall_mem_append.mpr ⟨iht htaken, iho hotherwise⟩⟩
  | rebase shift rule ih => exact ih h

/-- **A simple rule** passes its check. -/
theorem validate_of_isSimple (h : r.IsSimple P) : r.validate = .ok () := by
  induction r with
  | answer outcome => rfl
  | test condition taken otherwise iht iho =>
    obtain ⟨-, hcondition, htaken, hotherwise⟩ := h
    rw [validate, Condition.validate_of_isSimple condition hcondition, iht htaken]
    exact iho hotherwise
  | rebase shift rule ih => exact ih h

end Rule

end StepSequencer
