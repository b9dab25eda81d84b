import StepSequencer.Proofs.Rule.SimpleForm
import StepSequencer.Proofs.Script.Conditions

/-!
# What reading simplifies

The reader simplifies while it reads: arithmetic without the step becomes a constant, a comparison of
terms a congruence or a bound, and connectives absorb constants and their own kind. Whatever it makes
is simple (`Condition.IsSimple`).

Which comparisons stay is left open. A property of comparisons that holds of those that the reader
keeps (`KeepsComparisons`) and of those that a method stands for (`KeepsProperties`) holds of all that
are in a condition (`isSimple_of_condition`) or in a rule (`isSimple_of_block`). Without a method only
the first is needed.
-/

namespace StepSequencer

namespace Script

open Attempts

/-! ### Terms -/

namespace Term

/-- Combining terms makes a proper term. -/
theorem Combined.proper {op : ArithOp} {l r t : Term} (h : Combined op l r t) : t.Proper := by
  cases h with
  | residue hpos => exact hpos
  | computed | addConst | constAdd | subConst => trivial

/-- Every term that is read is proper. -/
theorem proper_of_ofExpr {param : Option String} {e : Expr} {t : Term} (h : ofExpr param e = .ok t) :
    t.Proper := by
  cases form_of_ofExpr h with
  | const | step | neg => trivial
  | binary _ _ hcombined => exact hcombined.proper

variable {P : CmpOp → StepExpr → StepExpr → Prop} {t : Term} {c : Condition}

/-- A proper term that equals a constant is a simple condition. -/
theorem isSimple_of_equalsConst? (ht : t.Proper) {k : Int64} (h : t.equalsConst? k = some c) :
    c.IsSimple P := by
  rcases t with a | offset | ⟨offset, modulus⟩
  · obtain rfl := Option.some.inj h
    trivial
  · obtain ⟨_, -, rfl⟩ := Option.map_eq_some_iff.mp h
    trivial
  · rw [equalsConst?] at h
    split at h
    · obtain ⟨_, -, rfl⟩ := Option.map_eq_some_iff.mp h
      exact Word.pos_iff.mpr ht
    · obtain rfl := Option.some.inj h
      trivial

theorem isSimple_bound (op : OrderOp) (n : Int64) : (bound op n).IsSimple P := by
  cases op <;> trivial

/-- A comparison of terms that is a condition is a simple one. -/
theorem isSimple_of_compared? {op : CmpOp} {l r : Term} (hl : l.Proper) (hr : r.Proper)
    (h : compared? op l r = some c) : c.IsSimple P := by
  cases op with
  | eq =>
    have hequality : l.equality? r = some c := h
    unfold equality? at hequality
    split at hequality
    · exact isSimple_of_equalsConst? hl hequality
    · exact isSimple_of_equalsConst? hr hequality
    · obtain rfl := Option.some.inj hequality
      trivial
    · cases hequality
  | order op =>
    have hordering : l.ordering? op r = some c := h
    unfold ordering? at hordering
    split at hordering
    · obtain rfl := Option.some.inj hordering
      trivial
    · obtain rfl := Option.some.inj hordering
      trivial
    · obtain ⟨n, -, rfl⟩ := Option.map_eq_some_iff.mp hordering
      exact isSimple_bound op n
    · obtain ⟨n, -, rfl⟩ := Option.map_eq_some_iff.mp hordering
      exact isSimple_bound (flip op) n
    · cases hordering

end Term

/-! ### Comparisons -/

namespace Body

/-- Arithmetic is folded as it is read, part by part. -/
theorem ArithmeticForm.isFolded {param : Option String} {e : Expr} {s : StepExpr}
    (form : ArithmeticForm param e s) : s.IsFolded := by
  induction form with
  | int | float | step => trivial
  | neg _ ih => exact StepExpr.isFolded_folded fun heq ↦ ⟨ih, heq⟩
  | binary _ _ ihl ihr => exact StepExpr.isFolded_folded fun heq ↦ ⟨ihl, ihr, heq⟩

theorem isFolded_of_stepExpr {param : Option String} {e : Expr} {s : StepExpr}
    (h : stepExpr param e = .ok s) : s.IsFolded := (stepExpr_eq_ok_iff.mp h).isFolded

/-- Each comparison of arithmetic with the step in it has the property, unless its sides are terms
whose comparison is a simple condition. -/
def KeepsComparisons (param : Option String) (P : CmpOp → StepExpr → StepExpr → Prop) : Prop :=
  ∀ op lhs rhs a b, stepExpr param lhs = .ok a → stepExpr param rhs = .ok b →
    (∀ l r, Term.ofExpr param lhs = .ok l → Term.ofExpr param rhs = .ok r →
      Term.compared? op l r = none) →
    (a.usesStep || b.usesStep) = true → P op a b

/-- What a method stands for is simple, and its comparisons have the property. -/
def KeepsProperties (param : Option String) (P : CmpOp → StepExpr → StepExpr → Prop) : Prop :=
  ∀ receiver name c, property param receiver name = .ok c → c.IsSimple P

variable {param : Option String} {P : CmpOp → StepExpr → StepExpr → Prop}
  {lhs rhs : Expr} {a b : StepExpr} {c : Condition}

/-- A comparison that does not depend on the step is a constant, and any other has the property. -/
theorem isSimple_comparison {op : CmpOp} (h : (a.usesStep || b.usesStep) = true → P op a b) :
    (Condition.comparison op a b).IsSimple P := by
  unfold Condition.comparison
  split
  · next huses => exact h huses
  · split <;> trivial

section Comparisons

variable (hkeeps : KeepsComparisons param P)

include hkeeps

/-- Both ways to read a comparison make a simple condition. -/
theorem ComparisonForm.isSimple {op : CmpOp} (form : ComparisonForm param op lhs rhs c) :
    c.IsSimple P := by
  cases form with
  | terms hl hr hc =>
    exact Term.isSimple_of_compared? (Term.proper_of_ofExpr hl) (Term.proper_of_ofExpr hr) hc
  | arithmetic ha hb hunreduced =>
    exact isSimple_comparison (hkeeps op lhs rhs _ _ ha hb hunreduced)

/-- Each way to read an equality makes a simple condition. -/
theorem EqualityForm.isSimple {l r : Except (Halt BodyError) Condition}
    (form : EqualityForm param lhs rhs l r c) (hl : ∀ c, l = .ok c → c.IsSimple P)
    (hr : ∀ c, r = .ok c → c.IsSimple P) : c.IsSimple P := by
  cases form with
  | comparison form => exact form.isSimple hkeeps
  | truths _ hcl hcr =>
    split
    · exact Condition.isSimple_iff (hl _ hcl) (hr _ hcr)
    · trivial
  | literals => trivial

end Comparisons

end Body

/-! ### Conditions and values -/

/-- No function and no method is called in the expression, and nothing is looked up. -/
def Expr.IsCallFree : Expr → Prop
  | .unary _ operand => operand.IsCallFree
  | .binary _ lhs rhs => lhs.IsCallFree ∧ rhs.IsCallFree
  | .call .. | .method .. | .index .. => False
  | _ => True

namespace Body

variable {param : Option String} {P : CmpOp → StepExpr → StepExpr → Prop} {e : Expr}

/-- A test whose condition is constant becomes one of its branches. -/
theorem isSimple_branch {c : Condition} {taken otherwise : Rule} (hc : c.IsSimple P)
    (htaken : taken.IsSimple P) (hotherwise : otherwise.IsSimple P) :
    (branch c taken otherwise).IsSimple P := by
  unfold branch
  split
  · exact htaken
  · exact hotherwise
  · next htrue hfalse =>
    refine ⟨fun value heq ↦ ?_, hc, htaken, hotherwise⟩
    cases value with
    | true => exact htrue heq
    | false => exact hfalse heq

section Conditions

variable (hkeeps : KeepsComparisons param P)

include hkeeps

/-- **A condition that is read** is simple. -/
theorem isSimple_of_condition {c : Condition} (hmethods : e.IsCallFree ∨ KeepsProperties param P)
    (h : condition param e = .ok c) : c.IsSimple P := by
  fun_induction condition param e generalizing c with
  | case9 operand ih =>
    obtain ⟨inner, hinner, h⟩ := bind_eq_ok_iff.mp h
    obtain rfl := Except.ok.inj h
    exact Condition.isSimple_negate (ih hmethods hinner)
  | case10 lhs rhs ihl ihr =>
    obtain ⟨l, hl, h⟩ := bind_eq_ok_iff.mp h
    obtain ⟨r, hr, h⟩ := bind_eq_ok_iff.mp h
    obtain rfl := Except.ok.inj h
    exact Connective.isSimple_join (ihl (hmethods.imp_left And.left) hl)
      (ihr (hmethods.imp_left And.right) hr)
  | case11 lhs rhs ihl ihr =>
    obtain ⟨l, hl, h⟩ := bind_eq_ok_iff.mp h
    obtain ⟨r, hr, h⟩ := bind_eq_ok_iff.mp h
    obtain rfl := Except.ok.inj h
    exact Connective.isSimple_join (ihl (hmethods.imp_left And.left) hl)
      (ihr (hmethods.imp_left And.right) hr)
  | case12 lhs rhs ihl ihr =>
    exact (form_of_equality h).isSimple hkeeps (fun _ hc ↦ ihl (hmethods.imp_left And.left) hc)
      fun _ hc ↦ ihr (hmethods.imp_left And.right) hc
  | case13 lhs rhs ihl ihr =>
    obtain ⟨inner, hinner, h⟩ := bind_eq_ok_iff.mp h
    obtain rfl := Except.ok.inj h
    have hsimple : inner.IsSimple P := (form_of_equality hinner).isSimple hkeeps
      (fun _ hc ↦ ihl (hmethods.imp_left And.left) hc)
      fun _ hc ↦ ihr (hmethods.imp_left And.right) hc
    exact Condition.isSimple_negate hsimple
  | case14 op lhs rhs => exact (form_of_ordering h).isSimple hkeeps
  | case15 receiver name =>
    rcases hmethods with hfree | hproperties
    · exact hfree.elim
    · exact hproperties receiver name c h
  | case16 | case17 =>
    obtain ⟨s, -, h⟩ := bind_eq_ok_iff.mp h
    obtain rfl := Except.ok.inj h
    trivial
  | case8 | case18 => cases h
  | _ =>
    obtain rfl := Except.ok.inj h
    trivial

/-- The rule of an expression is simple. -/
theorem isSimple_of_value {r : Rule} (hmethods : e.IsCallFree ∨ KeepsProperties param P)
    (h : value param e = .ok r) : r.IsSimple P := by
  cases form_of_value h with
  | condition hc => exact isSimple_branch (isSimple_of_condition hkeeps hmethods hc) trivial trivial
  | truth | nil | constant => trivial

/-! ### Rules -/

variable (hmethods : KeepsProperties param P)

include hmethods

/-- **The rule of some statements** is simple, and that of branches is if the rule of the case in which
none is taken is. -/
theorem isSimple_of_rules : (∀ stmts r, block param stmts = .ok r → r.IsSimple P) ∧
    ∀ line arms rest last r, branches param line arms rest last = .ok r → last.IsSimple P →
      r.IsSimple P := by
  have hvalue {e : Expr} {r : Rule} (h : value param e = .ok r) : r.IsSimple P :=
    isSimple_of_value hkeeps (.inr hmethods) h
  refine rules_induction (q := fun _ _ last r ↦ last.IsSimple P → r.IsSimple P) ?nil ?retNil ?ret
    ?cond ?assign ?expr ?command ?skipExpr ?skipCommand ?noArms ?arm
  case nil => trivial
  case retNil => exact fun _ _ ↦ trivial
  case ret => exact fun _ _ _ _ h ↦ hvalue h
  case cond => exact fun _ _ _ _ _ _ hlast hbranches ↦ hbranches hlast
  case assign => exact fun _ _ _ _ _ _ _ _ _ _ hrest ↦ hrest
  case expr => exact fun _ _ _ h ↦ hvalue h
  case command => exact fun _ _ _ _ ↦ trivial
  case skipExpr => exact fun _ _ _ _ _ hrest ↦ hrest
  case skipCommand => exact fun _ _ _ _ _ _ _ hrest ↦ hrest
  case noArms => exact fun _ _ hlast ↦ hlast
  case arm =>
    intro e body arms rest last r taken c hr htaken hc hlast
    exact isSimple_branch (isSimple_of_condition hkeeps (.inr hmethods) hc) htaken (hr hlast)

/-- **The rule of a body** is simple. -/
theorem isSimple_of_block {stmts : List Stmt} {r : Rule} (h : block param stmts = .ok r) :
    r.IsSimple P :=
  (isSimple_of_rules hkeeps hmethods).1 stmts r h

end Conditions

end Body

end Script

end StepSequencer
