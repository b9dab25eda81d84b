import StepSequencer.Proofs.Attempts
import StepSequencer.Proofs.Number.Words
import StepSequencer.Script.Body

/-!
# What the parts of a function body are read as

A part of a function body is read only if nothing in it fails, and then in one of a few ways. They are
told apart here once: for terms (`Term.Form`) and arithmetic (`ArithmeticForm`), for comparisons
(`ComparisonForm`, `EqualityForm`), for values (`ValueForm`), and for the statements that have others in
them or after them (`block_cond_eq_ok_iff`, `of_block_assign`).

Statements and the branches of a condition are read by turns. `rules_induction` is the induction over
both, with a case for each way to come by a rule and none for what is refused.
-/

namespace StepSequencer.Script

open Attempts

variable {param : Option String} {lhs rhs e : Expr} {c : Condition}

/-! ### Terms -/

namespace Term

theorem exact_eq_ok_iff {make : Int64 → Term} {o : Option Int64} {t : Term} :
    exact make o = .ok t ↔ ∃ n, o = some n ∧ make n = t := by
  constructor
  · intro h
    rcases o with - | n
    · cases h
    · exact ⟨n, rfl, Except.ok.inj h⟩
  · rintro ⟨n, rfl, rfl⟩
    rfl

/-- What two terms combine to: constants are computed, a constant shifts the step, and the shifted step
leaves a residue. -/
inductive Combined : ArithOp → Term → Term → Term → Prop
  | computed {op : ArithOp} {a b k : Int64} (h : op.onWords? a b = some k) :
    Combined op (.const a) (.const b) (.const k)
  | addConst {c k offset : Int64} (h : offset.toInt = c.toInt + k.toInt) :
    Combined .add (.step c) (.const k) (.step offset)
  | constAdd {c k offset : Int64} (h : offset.toInt = c.toInt + k.toInt) :
    Combined .add (.const k) (.step c) (.step offset)
  | subConst {c k offset : Int64} (h : offset.toInt = c.toInt - k.toInt) :
    Combined .sub (.step c) (.const k) (.step offset)
  | residue {c modulus : Int64} (hpos : 0 < modulus.toInt) :
    Combined .rem (.step c) (.const modulus) (.residue c modulus)

/-- Terms combine in no other way. -/
theorem combined_of_combine {op : ArithOp} {l r t : Term} (h : combine op l r = .ok t) :
    Combined op l r t := by
  unfold combine at h
  split at h
  case h_2 =>
    obtain ⟨offset, hoffset, rfl⟩ := exact_eq_ok_iff.mp h
    exact .addConst (Word.add?_eq_some_iff.mp hoffset)
  case h_3 =>
    obtain ⟨offset, hoffset, rfl⟩ := exact_eq_ok_iff.mp h
    exact .constAdd (Word.add?_eq_some_iff.mp hoffset)
  case h_5 =>
    obtain ⟨offset, hoffset, rfl⟩ := exact_eq_ok_iff.mp h
    exact .subConst (Word.sub?_eq_some_iff.mp hoffset)
  case h_8 a b =>
    -- a remainder of constants, whose quotient was checked
    split at h
    · cases h
    · cases h
    · next r _ hk =>
      obtain rfl := Except.ok.inj h
      exact .computed hk
  case h_9 c modulus =>
    split at h
    · next hpos =>
      obtain rfl := Except.ok.inj h
      exact .residue (Word.pos_iff.mp hpos)
    · cases h
  case h_10 a b =>
    -- a power
    split at h
    · next hexponent =>
      obtain ⟨k, hk, rfl⟩ := exact_eq_ok_iff.mp h
      refine .computed ?_
      rw [ArithOp.onWords?, if_pos hexponent, hk]
    · cases h
  case h_11 => cases h
  -- a checked operation on two constants
  all_goals
    obtain ⟨k, hk, rfl⟩ := exact_eq_ok_iff.mp h
    exact .computed hk

/-- What an expression is as a term. -/
inductive Form (param : Option String) : Expr → Term → Prop where
  | const (n : Int64) : Form param (.int n) (.const n)
  | step {name : String} (h : param = some name) : Form param (.var name) (.step 0)
  | neg {e : Expr} {a b : Int64} (operand : Form param e (.const a)) (h : Word.neg? a = some b) :
    Form param (.unary .neg e) (.const b)
  | binary {op : ArithOp} {lhs rhs : Expr} {l r t : Term} (left : Form param lhs l)
    (right : Form param rhs r) (combined : Combined op l r t) :
    Form param (.binary (.arith op) lhs rhs) t

/-- An expression is a term in no other way. -/
theorem form_of_ofExpr {t : Term} (h : ofExpr param e = .ok t) : Form param e t := by
  fun_induction ofExpr param e generalizing t with
  | case1 value =>
    obtain rfl := Except.ok.inj h
    exact .const value
  | case2 name hname =>
    obtain rfl := Except.ok.inj h
    exact .step hname
  | case4 operand ih =>
    obtain ⟨inner, hinner, h⟩ := bind_eq_ok_iff.mp h
    split at h
    · obtain ⟨b, hb, rfl⟩ := exact_eq_ok_iff.mp h
      exact .neg (ih hinner) hb
    · cases h
  | case5 op lhs rhs ihl ihr =>
    obtain ⟨l, hl, h⟩ := bind_eq_ok_iff.mp h
    obtain ⟨r, hr, h⟩ := bind_eq_ok_iff.mp h
    split at h
    · exact .binary (ihl hl) (ihr hr) (combined_of_combine h)
    · cases h
  | case3 | case6 => cases h

/-- The comparison of two terms, where it is a simple condition. -/
def compared? : CmpOp → Term → Term → Option Condition
  | .eq, l, r => l.equality? r
  | .order op, l, r => l.ordering? op r

end Term

theorem term?_eq_some_iff {t : Term} :
    Body.term? param e = .ok (some t) ↔ Term.ofExpr param e = .ok t := by
  rw [Body.term?]
  constructor
  · intro h
    split at h
    · next t' ht => rw [ht, Option.some.inj (Except.ok.inj h)]
    · cases h
    · cases h
  · intro h
    rw [h]

section Terms

variable {s t : Option Term} {f : Term → Term → Option Condition}

/-- What is compared as terms was made from two terms. -/
theorem terms_of_bind (hs : Body.term? param lhs = .ok s) (ht : Body.term? param rhs = .ok t)
    (h : (s.bind fun l ↦ t.bind (f l)) = some c) :
    ∃ l r, Term.ofExpr param lhs = .ok l ∧ Term.ofExpr param rhs = .ok r ∧ f l r = some c := by
  obtain ⟨l, rfl, hright⟩ := Option.bind_eq_some_iff.mp h
  obtain ⟨r, rfl, hc⟩ := Option.bind_eq_some_iff.mp hright
  exact ⟨l, r, term?_eq_some_iff.mp hs, term?_eq_some_iff.mp ht, hc⟩

/-- What is not compared as terms has no terms that could be. -/
theorem eq_none_of_bind (hs : Body.term? param lhs = .ok s) (ht : Body.term? param rhs = .ok t)
    (h : (s.bind fun l ↦ t.bind (f l)) = none) {l r : Term} (hl : Term.ofExpr param lhs = .ok l)
    (hr : Term.ofExpr param rhs = .ok r) : f l r = none := by
  obtain rfl := Except.ok.inj (hs.symm.trans (term?_eq_some_iff.mpr hl))
  obtain rfl := Except.ok.inj (ht.symm.trans (term?_eq_some_iff.mpr hr))
  exact h

end Terms

/-- A result that is taken for granted is given exactly if there is one. -/
theorem granted_eq_ok_iff {operation : Overflow} {o : Option Int64} {n : Int64} :
    Body.granted operation o = .ok n ↔ o = some n := by
  constructor
  · intro h
    rcases o with - | m
    · cases h
    · exact congrArg some (Except.ok.inj h)
  · rintro rfl
    rfl

namespace Body

/-! ### Arithmetic -/

/-- What arithmetic is read as: its operators as they stand, with constants folded. -/
inductive ArithmeticForm (param : Option String) : Expr → StepExpr → Prop where
  | int (n : Int64) : ArithmeticForm param (.int n) (.const (.int n))
  | float (x : Float) : ArithmeticForm param (.float x) (.const (.float x))
  | step {name : String} (h : param = some name) : ArithmeticForm param (.var name) .step
  | neg {e : Expr} {o : StepExpr} (operand : ArithmeticForm param e o) :
    ArithmeticForm param (.unary .neg e) (StepExpr.neg o).folded
  | binary {op : ArithOp} {lhs rhs : Expr} {l r : StepExpr} (left : ArithmeticForm param lhs l)
    (right : ArithmeticForm param rhs r) :
    ArithmeticForm param (.binary (.arith op) lhs rhs) (StepExpr.binary op l r).folded

/-- Arithmetic is read in these ways and in no other. -/
theorem stepExpr_eq_ok_iff {s : StepExpr} : stepExpr param e = .ok s ↔ ArithmeticForm param e s := by
  constructor
  · intro h
    fun_induction stepExpr param e generalizing s with
    | case1 value =>
      obtain rfl := Except.ok.inj h
      exact .int value
    | case2 value =>
      obtain rfl := Except.ok.inj h
      exact .float value
    | case3 name hname =>
      obtain rfl := Except.ok.inj h
      exact .step hname
    | case5 operand ih =>
      obtain ⟨o, ho, h⟩ := bind_eq_ok_iff.mp h
      obtain rfl := Except.ok.inj h
      exact .neg (ih ho)
    | case6 op lhs rhs ihl ihr =>
      obtain ⟨l, hl, h⟩ := bind_eq_ok_iff.mp h
      obtain ⟨r, hr, h⟩ := bind_eq_ok_iff.mp h
      obtain rfl := Except.ok.inj h
      exact .binary (ihl hl) (ihr hr)
    | case4 | case7 | case8 => cases h
  · intro h
    induction h with
    | int | float => rfl
    | step hname => exact if_pos hname
    | neg _ ih => exact bind_eq_ok_iff.mpr ⟨_, ih, rfl⟩
    | binary _ _ ihl ihr => exact bind_eq_ok_iff.mpr ⟨_, ihl, bind_eq_ok_iff.mpr ⟨_, ihr, rfl⟩⟩

theorem arithmetic_eq_ok_iff {s : StepExpr} :
    arithmetic param e = .ok s ↔ stepExpr param e = .ok s := mapError_eq_ok_iff

/-! ### Comparisons -/

/-- What a comparison is read as: a condition on two terms or, where there is none, a comparison of
arithmetic. -/
inductive ComparisonForm (param : Option String) (op : CmpOp) (lhs rhs : Expr) : Condition → Prop where
  | terms {l r : Term} {c : Condition} (left : Term.ofExpr param lhs = .ok l)
    (right : Term.ofExpr param rhs = .ok r) (compared : Term.compared? op l r = some c) :
    ComparisonForm param op lhs rhs c
  | arithmetic {a b : StepExpr} (left : stepExpr param lhs = .ok a)
    (right : stepExpr param rhs = .ok b)
    (unreduced : ∀ l r, Term.ofExpr param lhs = .ok l → Term.ofExpr param rhs = .ok r →
      Term.compared? op l r = none) :
    ComparisonForm param op lhs rhs (.comparison op a b)

/-- An ordering is read as terms where they compare to a condition, and else as arithmetic. -/
theorem form_of_ordering {op : OrderOp} (h : ordering param op lhs rhs = .ok c) :
    ComparisonForm param (.order op) lhs rhs c := by
  obtain ⟨s, hs, h⟩ := bind_eq_ok_iff.mp h
  obtain ⟨t, ht, h⟩ := bind_eq_ok_iff.mp h
  split at h
  · next hterms =>
    obtain rfl := Except.ok.inj h
    obtain ⟨l, r, hl, hr, hc⟩ := terms_of_bind hs ht hterms
    exact .terms hl hr hc
  · next hterms =>
    obtain ⟨a, ha, h⟩ := bind_eq_ok_iff.mp h
    obtain ⟨b, hb, h⟩ := bind_eq_ok_iff.mp h
    obtain rfl := Except.ok.inj h
    exact .arithmetic (arithmetic_eq_ok_iff.mp ha) (arithmetic_eq_ok_iff.mp hb)
      fun l r ↦ eq_none_of_bind hs ht hterms

/-- What an equality is read as, given what each side is as a condition. -/
inductive EqualityForm (param : Option String) (lhs rhs : Expr)
    (l r : Except (Halt BodyError) Condition) : Condition → Prop where
  | comparison {c : Condition} (form : ComparisonForm param .eq lhs rhs c) :
    EqualityForm param lhs rhs l r c
  /-- A truth value on either side. -/
  | truths {cl cr : Condition} (boolean : (lhs.isBoolean || rhs.isBoolean) = true)
    (left : l = .ok cl) (right : r = .ok cr) :
    EqualityForm param lhs rhs l r
      (if lhs.isBoolean && rhs.isBoolean then cl.iff cr else .const false)
  /-- Literals of which at least one is no number. -/
  | literals (left : lhs.isLiteral = true) (right : rhs.isLiteral = true)
    (plain : (∀ a, stepExpr param lhs ≠ .ok a) ∨ ∀ b, stepExpr param rhs ≠ .ok b) :
    EqualityForm param lhs rhs l r (.const (lhs.sameLiteral rhs))

/-- An equality is read as a comparison, by the truth of its sides, or literal by literal. -/
theorem form_of_equality {l r : Except (Halt BodyError) Condition}
    (h : equalityOf param lhs rhs l r = .ok c) : EqualityForm param lhs rhs l r c := by
  have hliterals {cause : BodyError}
      (h : (if lhs.isLiteral && rhs.isLiteral then .ok (.const (lhs.sameLiteral rhs))
        else .error (Halt.refused cause)) = Except.ok c)
      (hplain : (∀ a, stepExpr param lhs ≠ .ok a) ∨ ∀ b, stepExpr param rhs ≠ .ok b) :
      EqualityForm param lhs rhs l r c := by
    split at h
    · next hliteral =>
      obtain rfl := Except.ok.inj h
      rw [Bool.and_eq_true] at hliteral
      exact .literals hliteral.1 hliteral.2 hplain
    · cases h
  obtain ⟨s, hs, h⟩ := bind_eq_ok_iff.mp h
  obtain ⟨t, ht, h⟩ := bind_eq_ok_iff.mp h
  split at h
  · next hterms =>
    obtain rfl := Except.ok.inj h
    obtain ⟨l, r, hl, hr, hc⟩ := terms_of_bind hs ht hterms
    exact .comparison (.terms hl hr hc)
  · next hterms =>
    split at h
    · next hboolean =>
      obtain ⟨cl, hcl, h⟩ := bind_eq_ok_iff.mp h
      obtain ⟨cr, hcr, h⟩ := bind_eq_ok_iff.mp h
      obtain rfl := Except.ok.inj h
      exact .truths hboolean hcl hcr
    · split at h
      · next a b ha hb =>
        obtain rfl := Except.ok.inj h
        exact .comparison (.arithmetic ha hb fun l r ↦ eq_none_of_bind hs ht hterms)
      · next cause hcause => exact hliterals h (.inl fun a ha ↦ by cases ha.symm.trans hcause)
      · next cause hcause _ => exact hliterals h (.inr fun b hb ↦ by cases hb.symm.trans hcause)

/-! ### Values -/

/-- What a value is read as. -/
inductive ValueForm (param : Option String) : Expr → Rule → Prop where
  | truth (b : Bool) : ValueForm param (.bool b) (.answer (.ofBool b))
  | nil : ValueForm param .nil (.answer .nil)
  | constant {e : Expr} {n : Int64} (term : Term.ofExpr param e = .ok (.const n)) :
    ValueForm param e (.answer (.sentinel n))
  | condition {e : Expr} {c : Condition} (read : condition param e = .ok c) :
    ValueForm param e (branch c (.answer .true) (.answer .false))

/-- A value is read as a constant or as a branch on a condition. -/
theorem form_of_value {r : Rule} (h : value param e = .ok r) : ValueForm param e r := by
  rw [value.eq_def] at h
  split at h
  · obtain rfl := Except.ok.inj h
    exact .truth _
  · obtain rfl := Except.ok.inj h
    exact .nil
  · obtain ⟨t, ht, h⟩ := bind_eq_ok_iff.mp h
    split at h
    · obtain rfl := Except.ok.inj h
      exact .constant (term?_eq_some_iff.mp ht)
    · obtain ⟨c, hc, h⟩ := bind_eq_ok_iff.mp h
      obtain rfl := Except.ok.inj h
      exact .condition hc

/-! ### Statements -/

/-- A condition is read as the branch on what it is. -/
theorem block_cond_eq_ok_iff {line : Nat} {taken otherwise : List Stmt} {r : Rule} :
    block param [.cond line [(e, taken)] otherwise] = .ok r ↔
      ∃ a b c, block param taken = .ok a ∧ block param otherwise = .ok b ∧
        condition param e = .ok c ∧ r = branch c a b := by
  rw [block, List.append_nil]
  constructor
  · intro h
    obtain ⟨b, hb, h⟩ := bind_eq_ok_iff.mp h
    rw [branches, branches, List.append_nil] at h
    obtain ⟨_, ⟨⟩, h⟩ := bind_eq_ok_iff.mp h
    obtain ⟨a, ha, h⟩ := bind_eq_ok_iff.mp h
    obtain ⟨c, hc, h⟩ := bind_eq_ok_iff.mp h
    exact ⟨a, b, c, ha, hb, mapError_eq_ok_iff.mp hc, (Except.ok.inj h).symm⟩
  · rintro ⟨a, b, c, ha, hb, hc, rfl⟩
    refine bind_eq_ok_iff.mpr ⟨b, hb, ?_⟩
    rw [branches, branches, List.append_nil]
    exact bind_eq_ok_iff.mpr ⟨b, rfl, bind_eq_ok_iff.mpr ⟨a, ha,
      bind_eq_ok_iff.mpr ⟨c, mapError_eq_ok_iff.mpr hc, rfl⟩⟩⟩

/-- Only the parameter is assigned to, and it is shifted. -/
theorem of_block_assign {line : Nat} {name : String} {rest : List Stmt} {r : Rule}
    (h : block param (.assign line name e :: rest) = .ok r) :
    param = some name ∧ ∃ offset shift inner, Term.ofExpr param e = .ok (.step offset) ∧
      Word.neg? offset = some shift ∧ block param rest = .ok inner ∧ r = .rebase shift inner := by
  rw [block] at h
  split at h
  · next hname =>
    obtain ⟨t, ht, h⟩ := bind_eq_ok_iff.mp h
    split at h
    · next offset =>
      obtain ⟨shift, hshift, h⟩ := bind_eq_ok_iff.mp h
      obtain ⟨inner, hinner, h⟩ := bind_eq_ok_iff.mp h
      exact ⟨hname, offset, shift, inner, term?_eq_some_iff.mp ht, granted_eq_ok_iff.mp hshift,
        hinner, (Except.ok.inj h).symm⟩
    · cases h
  · cases h

/-- **Rules by the ways to come by them.** What holds of each way holds of the rule of any statements,
and of that of any branches, where `last` is the rule of the case in which none is taken. -/
theorem rules_induction {p : List Stmt → Rule → Prop}
    {q : List (Expr × List Stmt) → List Stmt → Rule → Rule → Prop}
    (nil : p [] (.answer .nil))
    (retNil : ∀ line rest, p (.ret line none :: rest) (.answer .nil))
    (ret : ∀ line e rest r, value param e = .ok r → p (.ret line (some e) :: rest) r)
    (cond : ∀ line arms otherwise rest last r, p (otherwise ++ rest) last → q arms rest last r →
      p (.cond line arms otherwise :: rest) r)
    (assign : ∀ line name e rest offset shift r, param = some name →
      Term.ofExpr param e = .ok (.step offset) → Word.neg? offset = some shift → p rest r →
      p (.assign line name e :: rest) (.rebase shift r))
    (expr : ∀ line e r, value param e = .ok r → p [.expr line e] r)
    (command : ∀ line name args options, p [.command line name args options] (.answer .nil))
    (skipExpr : ∀ line e next rest r, p (next :: rest) r → p (.expr line e :: next :: rest) r)
    (skipCommand : ∀ line name args options next rest r, p (next :: rest) r →
      p (.command line name args options :: next :: rest) r)
    (noArms : ∀ rest last, q [] rest last last)
    (arm : ∀ e body arms rest last r taken c, q arms rest last r → p (body ++ rest) taken →
      condition param e = .ok c → q ((e, body) :: arms) rest last (branch c taken r)) :
    (∀ stmts r, block param stmts = .ok r → p stmts r) ∧
      ∀ line arms rest last r, branches param line arms rest last = .ok r → q arms rest last r := by
  -- along the reader, for statements and branches together
  refine block.mutual_induct param (fun stmts ↦ ∀ r, block param stmts = .ok r → p stmts r)
    (fun line arms rest last ↦ ∀ r, branches param line arms rest last = .ok r → q arms rest last r)
    ?nil ?retNil ?ret ?cond ?assign ?assignOther ?expr ?command ?skipExpr ?skipCommand ?define
    ?liveLoop ?noArms ?arm
  case nil =>
    intro r h
    rw [block] at h
    obtain rfl := Except.ok.inj h
    exact nil
  case retNil =>
    intro line rest r h
    rw [block] at h
    obtain rfl := Except.ok.inj h
    exact retNil line rest
  case ret =>
    intro line e rest r h
    rw [block, mapError_eq_ok_iff] at h
    exact ret line e rest r h
  case cond =>
    intro line arms otherwise rest ihotherwise iharms r h
    rw [block] at h
    obtain ⟨last, hlast, h⟩ := bind_eq_ok_iff.mp h
    exact cond line arms otherwise rest last r (ihotherwise last hlast) (iharms last r h)
  case assign =>
    intro line name e rest hname ih r h
    obtain ⟨-, offset, shift, inner, hterm, hshift, hinner, rfl⟩ := of_block_assign h
    exact assign line name e rest offset shift inner hname hterm hshift (ih inner hinner)
  case assignOther =>
    intro line name e rest hname r h
    exact absurd (of_block_assign h).1 hname
  case expr =>
    intro line e r h
    rw [block, mapError_eq_ok_iff] at h
    exact expr line e r h
  case command =>
    intro line name args options r h
    rw [block] at h
    obtain rfl := Except.ok.inj h
    exact command line name args options
  case skipExpr =>
    intro line e next rest ih r h
    rw [block, mapError_eq_ok_iff] at h
    exact skipExpr line e next rest r (ih r h)
  case skipCommand =>
    intro line name args options next rest ih r h
    rw [block, mapError_eq_ok_iff] at h
    exact skipCommand line name args options next rest r (ih r h)
  case define =>
    intro line name parameter body rest r h
    rw [block] at h
    cases h
  case liveLoop =>
    intro line name body rest r h
    rw [block] at h
    cases h
  case noArms =>
    intro line rest last r h
    rw [branches] at h
    obtain rfl := Except.ok.inj h
    exact noArms rest last
  case arm =>
    intro line rest last e body arms iharms ihbody r h
    rw [branches] at h
    obtain ⟨inner, hinner, h⟩ := bind_eq_ok_iff.mp h
    obtain ⟨taken, htaken, h⟩ := bind_eq_ok_iff.mp h
    obtain ⟨c, hc, h⟩ := bind_eq_ok_iff.mp h
    obtain rfl := Except.ok.inj h
    exact arm e body arms rest last inner taken c (iharms inner hinner) (ihbody taken htaken)
      (mapError_eq_ok_iff.mp hc)

end Body

end StepSequencer.Script
