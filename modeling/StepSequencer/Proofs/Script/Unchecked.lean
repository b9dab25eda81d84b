import StepSequencer.Proofs.Script.Conditions

/-!
# Arithmetic without a check

Reading a function body computes some whole numbers without asking whether a word holds them: the
product and the difference in a remainder of constants, the offset after an offset, and the negation
of an offset (`Unchecked`). One that no word holds aborts the program.

For each part of the reading there is a list of the unchecked numbers on its way, in the order in
which they are computed: `Term.unchecked`, `Body.uncheckedCondition`, `Body.uncheckedBlock` and what
they are made of. What comes after a part that fails is not computed and not in the list. The first
number of the list that does not fit tells by which operation the part aborts, if it does (`Reveals`),
and `Reveals.bind` makes this hold of the whole if it holds of its parts.
-/

namespace StepSequencer

/-! ### Unchecked numbers -/

/-- Whole numbers that are computed without a check. -/
inductive Unchecked where
  /-- The negation of an offset. -/
  | negation (offset : Int64)
  /-- The offset after an offset. -/
  | successor (offset : Int64)
  /-- The remainder of two constants, from their floored quotient. -/
  | remainder (dividend divisor quotient : Int64)
  deriving DecidableEq

namespace Unchecked

/-- The numbers in the order in which they are computed. -/
def results : Unchecked → List Int
  | .negation offset => [-offset.toInt]
  | .successor offset => [offset.toInt + 1]
  | .remainder dividend divisor quotient =>
    [divisor.toInt * quotient.toInt, dividend.toInt - divisor.toInt * quotient.toInt]

/-- A word holds each of the numbers. -/
def Fits (u : Unchecked) : Prop := ∀ n ∈ u.results, Word.Holds n

instance (u : Unchecked) : Decidable u.Fits := inferInstanceAs (Decidable (∀ n ∈ u.results, _))

/-- The operation whose result is taken for granted. That of a remainder is the product: the
difference fits wherever the product does. -/
def operation : Unchecked → Overflow
  | .negation _ => .negation
  | .successor _ => .addition
  | .remainder .. => .multiplication

/-- The operation that has no result, if one of the numbers does not fit. -/
def overflow? (u : Unchecked) : Option Overflow := if u.Fits then none else some u.operation

theorem overflow?_eq_none_iff {u : Unchecked} : u.overflow? = none ↔ u.Fits := by
  simp [overflow?]

theorem overflow?_of_not_fits {u : Unchecked} (h : ¬u.Fits) : u.overflow? = some u.operation :=
  if_neg h

theorem overflow?_isSome_iff {u : Unchecked} : u.overflow?.isSome ↔ ¬u.Fits := by
  simp [overflow?]

/-- The operation of the first number that does not fit is missing where all fit. -/
theorem findSome?_overflow?_eq_none_iff {us : List Unchecked} :
    us.findSome? overflow? = none ↔ ∀ u ∈ us, u.Fits := by
  simp only [List.findSome?_eq_none_iff, overflow?_eq_none_iff]

/-- Only the least offset has no negation. -/
theorem fits_negation {offset : Int64} : (negation offset).Fits ↔ offset ≠ Int64.minValue := by
  have hleast : offset = Int64.minValue ↔ offset.toInt = -2 ^ 63 := Int64.toInt_inj.symm
  obtain ⟨hlow, hhigh⟩ := Word.holds_toInt offset
  rw [Fits, results, List.forall_mem_singleton, Word.Holds, Ne, hleast]
  omega

/-- A checked negation fails where the unchecked one does not fit. -/
theorem neg?_eq_none_iff {offset : Int64} :
    Word.neg? offset = none ↔ ¬(negation offset).Fits := by
  rw [Fits, results, List.forall_mem_singleton]
  exact Word.ofInt?_eq_none_iff

theorem fits_of_neg? {offset shift : Int64} (h : Word.neg? offset = some shift) :
    (negation offset).Fits :=
  Decidable.byContradiction fun hnot ↦ nomatch h.symm.trans (neg?_eq_none_iff.mpr hnot)

/-- A checked successor fails where the unchecked one does not fit. -/
theorem add?_one_eq_none_iff {offset : Int64} :
    Word.add? offset 1 = none ↔ ¬(successor offset).Fits := by
  rw [Fits, results, List.forall_mem_singleton]
  exact Word.ofInt?_eq_none_iff

/-- A remainder of constants fits if the multiple of the divisor does that is taken away. -/
theorem fits_remainder {a b q : Int64} (hq : Word.floorDiv? a b = some q) :
    (remainder a b q).Fits ↔ ∃ r, Word.floorMod? a b = some r := by
  rw [Fits, results, List.forall_mem_cons, List.forall_mem_singleton]
  constructor
  · rintro ⟨hproduct, -⟩
    exact Word.floorMod?_of_floorDiv? hq ((Word.toInt_of_floorDiv? hq).2 ▸ hproduct)
  · rintro ⟨r, hr⟩
    rw [Word.floorMod?, hq, Option.bind_some] at hr
    obtain ⟨p, hp, hrest⟩ := Option.bind_eq_some_iff.mp hr
    have hproduct : p.toInt = b.toInt * q.toInt := Word.ofInt?_eq_some_iff.mp hp
    have hrest : r.toInt = a.toInt - p.toInt := Word.sub?_eq_some_iff.mp hrest
    rw [← hproduct, ← hrest]
    exact ⟨Word.holds_toInt p, Word.holds_toInt r⟩

end Unchecked

/-! ### Aborts -/

section Reveals

variable {ε ε' α β : Type}

/-- The operation for which a computation aborts the program, if it does. -/
def abort? : Except (Halt ε) α → Option Overflow
  | .error (.aborted operation) => some operation
  | _ => none

theorem abort?_eq_some_iff {x : Except (Halt ε) α} {o : Overflow} :
    abort? x = some o ↔ x = .error (.aborted o) := by
  unfold abort?
  split
  · simp
  · next h =>
    refine iff_of_false nofun ?_
    rintro rfl
    exact h o rfl

/-- What is computed after a success. -/
def following (x : Except ε α) (next : α → List Unchecked) : List Unchecked :=
  match x with
  | .ok a => next a
  | .error _ => []

/-- What is computed after a success is computed after that success only. -/
theorem mem_following {x : Except ε α} {next : α → List Unchecked} {u : Unchecked} :
    u ∈ following x next ↔ ∃ a, x = .ok a ∧ u ∈ next a := by
  rcases x with e | a
  · exact iff_of_false List.not_mem_nil (by rintro ⟨_, ⟨⟩, -⟩)
  · constructor
    · exact fun hu ↦ ⟨a, rfl, hu⟩
    · rintro ⟨_, ⟨⟩, hu⟩
      exact hu

theorem following_nil (x : Except ε α) : following x (fun _ ↦ []) = [] := by
  rcases x <;> rfl

theorem following_mapError {x : Except ε α} {f : ε → ε'} {next : α → List Unchecked} :
    following (x.mapError f) next = following x next := by
  rcases x <;> rfl

/-- The computation aborts for the first of the unchecked numbers on its way that does not fit, and
does not abort if all of them do. -/
def Reveals (x : Except (Halt ε) α) (us : List Unchecked) : Prop :=
  abort? x = us.findSome? Unchecked.overflow?

theorem reveals_ok (a : α) : Reveals (.ok a : Except (Halt ε) α) [] := rfl

theorem reveals_refused (e : ε) : Reveals (.error (.refused e) : Except (Halt ε) α) [] := rfl

theorem reveals_ok_of_fits {u : Unchecked} (h : u.Fits) (a : α) :
    Reveals (.ok a : Except (Halt ε) α) [u] := by
  simp [Reveals, abort?, Unchecked.overflow?_eq_none_iff.mpr h]

theorem reveals_aborted {u : Unchecked} (h : ¬u.Fits) :
    Reveals (.error (.aborted u.operation) : Except (Halt ε) α) [u] := by
  simp [Reveals, abort?, Unchecked.overflow?_of_not_fits h]

/-- What can only refuse does not abort. -/
theorem reveals_mapError_refused (x : Except ε α) : Reveals (x.mapError .refused) [] := by
  rcases x <;> rfl

namespace Reveals

variable {x : Except (Halt ε) α} {us : List Unchecked}

/-- A computation whose unchecked numbers all fit does not abort. -/
theorem not_aborted (hx : Reveals x us) (hus : ∀ u ∈ us, u.Fits) (o : Overflow) :
    x ≠ .error (.aborted o) := by
  intro h
  have hnone : abort? x = none := hx.trans (Unchecked.findSome?_overflow?_eq_none_iff.mpr hus)
  cases hnone.symm.trans (abort?_eq_some_iff.mpr h)

/-- One part after the other. -/
theorem bind {f : α → Except (Halt ε) β} {vs : α → List Unchecked} (hx : Reveals x us)
    (hf : ∀ a, x = .ok a → Reveals (f a) (vs a)) : Reveals (x >>= f) (us ++ following x vs) := by
  rw [Reveals, List.findSome?_append, ← hx]
  rcases x with (e | o) | a
  · rfl
  · rfl
  · exact hf a rfl

/-- What is done with a result in the end. -/
theorem bind_ok {f : α → Except (Halt ε) β} (hx : Reveals x us)
    (hf : ∀ a, x = .ok a → Reveals (f a) []) : Reveals (x >>= f) us := by
  have h := hx.bind hf
  rwa [following_nil, List.append_nil] at h

/-- What is made of a result in the end aborts nothing. -/
theorem map (hx : Reveals x us) (f : α → β) : Reveals (x.map f) us := by
  rcases x with (e | o) | a <;> exact hx

/-- A context puts no abort in and takes none away. -/
theorem mapError (hx : Reveals x us) (context : ε → ε') :
    Reveals (x.mapError (Halt.map context)) us := by
  rcases x with (e | o) | a <;> exact hx

end Reveals

end Reveals

namespace Script

variable {param : Option String}

/-! ### Terms -/

namespace Term

/-- The unchecked numbers of an operator on two terms. -/
def uncheckedCombine : BinaryOp → Term → Term → List Unchecked
  | .arith .rem, .const a, .const b => (Word.floorDiv? a b).toList.map (.remainder a b)
  | _, _, _ => []

/-- The unchecked numbers on the way to a term. -/
def unchecked (param : Option String) : Expr → List Unchecked
  | .unary .neg operand => unchecked param operand
  | .binary op lhs rhs =>
    unchecked param lhs ++ following (ofExpr param lhs) fun l ↦
      unchecked param rhs ++ following (ofExpr param rhs) fun r ↦ uncheckedCombine op l r
  | _ => []

/-- Only the remainder of two constants is computed without a check. -/
theorem uncheckedCombine_eq_nil {op : BinaryOp} {l r : Term}
    (h : ∀ a b, op = .arith .rem → l = .const a → r = .const b → False) :
    uncheckedCombine op l r = [] := by
  unfold uncheckedCombine
  split
  · next a b => exact (h a b rfl rfl rfl).elim
  · rfl

/-- Checked arithmetic never aborts. -/
theorem reveals_exact {make : Int64 → Term} {o : Option Int64} : Reveals (exact make o) [] := by
  cases o with
  | some n => exact reveals_ok _
  | none => exact reveals_refused _

/-- An operator on two terms aborts only as the remainder of constants that does not fit. -/
theorem reveals_combine {op : ArithOp} {l r : Term} :
    Reveals (combine op l r) (uncheckedCombine (.arith op) l r) := by
  unfold combine
  split
  -- the remainder of two constants, by how far it is computed
  case h_8 a b =>
    rw [uncheckedCombine]
    split
    · next h =>
      rw [h]
      exact reveals_refused _
    · next q hq hmod =>
      have hnot : ¬(Unchecked.remainder a b q).Fits := by
        rw [Unchecked.fits_remainder hq, hmod]
        rintro ⟨_, ⟨⟩⟩
      rw [hq]
      exact reveals_aborted hnot
    · next q r hq hmod =>
      have hfits : (Unchecked.remainder a b q).Fits := (Unchecked.fits_remainder hq).mpr ⟨r, hmod⟩
      rw [hq]
      exact reveals_ok_of_fits hfits _
  case h_9 => split <;> first | exact reveals_ok _ | exact reveals_refused _
  case h_10 => split <;> first | exact reveals_exact | exact reveals_refused _
  case h_11 hrem _ _ =>
    rw [uncheckedCombine_eq_nil fun a b hop ↦ hrem a b (BinaryOp.arith.inj hop)]
    exact reveals_refused _
  all_goals exact reveals_exact

/-- **The term of an expression** aborts for the first of its remainders that does not fit. -/
theorem reveals_ofExpr (e : Expr) : Reveals (ofExpr param e) (unchecked param e) := by
  fun_induction ofExpr param e with
  | case1 | case2 => exact reveals_ok _
  | case3 => exact reveals_refused _
  | case4 operand ih =>
    refine ih.bind_ok fun t _ ↦ ?_
    split
    · exact reveals_exact
    · exact reveals_refused _
  | case5 op lhs rhs ihl ihr =>
    refine ihl.bind fun l _ ↦ ihr.bind fun r _ ↦ ?_
    split
    · exact reveals_combine
    · next hop =>
      rw [uncheckedCombine_eq_nil fun a b h ↦ (hop _ h).elim]
      exact reveals_refused _
  | case6 e =>
    have hnil : unchecked param e = [] := by rw [unchecked] <;> assumption
    rw [hnil]
    exact reveals_refused _

end Term

namespace Body

/-! ### Conditions -/

/-- A result that is taken for granted is an unchecked number. -/
theorem reveals_granted {o : Option Int64} {u : Unchecked} (h : o = none ↔ ¬u.Fits) :
    Reveals (granted u.operation o) [u] := by
  cases o with
  | none => exact reveals_aborted (h.mp rfl)
  | some n => exact reveals_ok_of_fits (Decidable.byContradiction fun hnot ↦ nomatch h.mpr hnot) n

theorem reveals_negation {offset : Int64} :
    Reveals (granted .negation (Word.neg? offset)) [.negation offset] :=
  reveals_granted Unchecked.neg?_eq_none_iff

theorem reveals_successor {offset : Int64} :
    Reveals (granted .addition (Word.add? offset 1)) [.successor offset] :=
  reveals_granted Unchecked.add?_one_eq_none_iff

/-- To try for a term aborts as the term does. -/
theorem reveals_term? (e : Expr) : Reveals (term? param e) (Term.unchecked param e) := by
  have h : Reveals (Term.ofExpr param e) (Term.unchecked param e) := Term.reveals_ofExpr e
  unfold term?
  split
  all_goals
    next heq => rwa [heq] at h

/-- Arithmetic with floats to fall back on never aborts. -/
theorem reveals_arithmetic (e : Expr) : Reveals (arithmetic param e) [] := reveals_mapError_refused _

variable (param) in
/-- The unchecked numbers on the way to the terms of two sides, and of what follows. -/
def uncheckedSides (lhs rhs : Expr) (next : Option Term → Option Term → List Unchecked) :
    List Unchecked :=
  Term.unchecked param lhs ++ following (term? param lhs) fun a ↦
    Term.unchecked param rhs ++ following (term? param rhs) (next a)

variable (param) in
/-- The unchecked numbers on the way to an equality, given each side as a condition with its own. -/
def uncheckedEquality (lhs rhs : Expr) (l : Except (Halt BodyError) Condition)
    (us vs : List Unchecked) : List Unchecked :=
  uncheckedSides param lhs rhs fun a b ↦
    match a.bind fun a ↦ b.bind a.equality? with
    | some _ => []
    | none => if lhs.isBoolean || rhs.isBoolean then us ++ following l fun _ ↦ vs else []

theorem reveals_equalityOf {lhs rhs : Expr} {l r : Except (Halt BodyError) Condition}
    {us vs : List Unchecked} (hl : Reveals l us) (hr : Reveals r vs) :
    Reveals (equalityOf param lhs rhs l r) (uncheckedEquality param lhs rhs l us vs) := by
  refine (reveals_term? lhs).bind fun a _ ↦ (reveals_term? rhs).bind fun b _ ↦ ?_
  dsimp only
  -- what the two terms come to, if anything, decides what is computed next
  generalize (a.bind fun a ↦ b.bind a.equality?) = simple
  cases simple with
  | some c => exact reveals_ok c
  | none =>
    dsimp only
    split
    · exact hl.bind fun _ _ ↦ hr.bind_ok fun _ _ ↦ reveals_ok _
    · split
      · exact reveals_ok _
      all_goals
        split
        · exact reveals_ok _
        · exact reveals_refused _

theorem reveals_ordering {op : OrderOp} {lhs rhs : Expr} :
    Reveals (ordering param op lhs rhs) (uncheckedSides param lhs rhs fun _ _ ↦ []) := by
  refine (reveals_term? lhs).bind fun a _ ↦ (reveals_term? rhs).bind fun b _ ↦ ?_
  split
  · exact reveals_ok _
  · exact (reveals_arithmetic lhs).bind_ok fun _ _ ↦
      (reveals_arithmetic rhs).bind_ok fun _ _ ↦ reveals_ok _

/-- The unchecked number of a property of the step plus an offset. -/
def uncheckedProperty (name : String) : Option Term → List Unchecked
  | some (.step offset) =>
    match name with
    | "odd?" => [.successor offset]
    | "zero?" | "positive?" | "negative?" => [.negation offset]
    | _ => []
  | _ => []

theorem reveals_termProperty? {name : String} {t : Option Term} :
    Reveals (termProperty? name t) (uncheckedProperty name t) := by
  unfold termProperty?
  split
  · next offset =>
    unfold shiftedProperty?
    split
    · exact reveals_ok _
    · exact reveals_successor.map _
    · exact reveals_negation.map _
    · exact reveals_negation.map _
    · exact reveals_negation.map _
    · have hnil : uncheckedProperty name (some (.step offset)) = [] := by
        rw [uncheckedProperty] <;> assumption
      rw [hnil]
      exact reveals_ok _
  · have hnil : uncheckedProperty name t = [] := by
      rw [uncheckedProperty]
      assumption
    rw [hnil]
    exact reveals_ok _

theorem reveals_property {receiver : Expr} {name : String} :
    Reveals (property param receiver name)
      (Term.unchecked param receiver ++
        following (term? param receiver) (uncheckedProperty name)) := by
  refine (reveals_term? receiver).bind fun t _ ↦ reveals_termProperty?.bind_ok fun c _ ↦ ?_
  split
  · exact reveals_ok _
  · refine (reveals_arithmetic receiver).bind_ok fun e _ ↦ ?_
    split
    · exact reveals_ok _
    · exact reveals_refused _

variable (param) in
/-- The unchecked numbers on the way to a condition. -/
def uncheckedCondition : Expr → List Unchecked
  | .unary .not operand => uncheckedCondition operand
  | .binary .or lhs rhs | .binary .and lhs rhs =>
    uncheckedCondition lhs ++ following (condition param lhs) fun _ ↦ uncheckedCondition rhs
  | .binary .eq lhs rhs | .binary .ne lhs rhs =>
    uncheckedEquality param lhs rhs (condition param lhs) (uncheckedCondition lhs)
      (uncheckedCondition rhs)
  | .binary (.order _) lhs rhs => uncheckedSides param lhs rhs fun _ _ ↦ []
  | .method receiver name [] =>
    Term.unchecked param receiver ++ following (term? param receiver) (uncheckedProperty name)
  | _ => []

/-- **A condition** aborts for the first of its unchecked numbers that does not fit. -/
theorem reveals_condition (e : Expr) : Reveals (condition param e) (uncheckedCondition param e) := by
  fun_induction condition param e with
  | case8 => exact reveals_refused _
  | case18 e =>
    have hnil : uncheckedCondition param e = [] := by rw [uncheckedCondition] <;> assumption
    rw [hnil]
    exact reveals_refused _
  | case9 operand ih => exact ih.bind_ok fun _ _ ↦ reveals_ok _
  | case10 lhs rhs ihl ihr | case11 lhs rhs ihl ihr =>
    exact ihl.bind fun _ _ ↦ ihr.bind_ok fun _ _ ↦ reveals_ok _
  | case12 lhs rhs ihl ihr => exact reveals_equalityOf ihl ihr
  | case13 lhs rhs ihl ihr => exact (reveals_equalityOf ihl ihr).bind_ok fun _ _ ↦ reveals_ok _
  | case14 op lhs rhs => exact reveals_ordering
  | case15 receiver name => exact reveals_property
  | case16 | case17 => exact (reveals_arithmetic _).bind_ok fun _ _ ↦ reveals_ok _
  | _ => exact reveals_ok _

variable (param) in
/-- The unchecked numbers on the way to the rule of a value. -/
def uncheckedValue : Expr → List Unchecked
  | .bool _ | .nil => []
  | e =>
    Term.unchecked param e ++ following (term? param e) fun t ↦
      match t with
      | some (.const _) => []
      | _ => uncheckedCondition param e

/-- **The rule of a value** aborts for the first of its unchecked numbers that does not fit. -/
theorem reveals_value (e : Expr) : Reveals (value param e) (uncheckedValue param e) := by
  fun_cases value param e with
  | case1 | case2 => exact reveals_ok _
  | case3 e hbool hnil =>
    rw [uncheckedValue] <;> try assumption
    have hcondition : Reveals
        (condition param e >>= fun c ↦ .ok (branch c (.answer .true) (.answer .false)))
        (uncheckedCondition param e) := (reveals_condition e).bind_ok fun _ _ ↦ reveals_ok _
    refine (reveals_term? e).bind fun t _ ↦ ?_
    -- a constant answers by itself, and for all else the value is a condition
    rcases t with - | (n | offset | ⟨offset, modulus⟩)
    case some.const => exact reveals_ok _
    all_goals exact hcondition

/-! ### Statements -/

variable (param)

mutual

/-- The unchecked numbers on the way to the rule of some statements. -/
def uncheckedBlock (stmts : List Stmt) : List Unchecked :=
  match stmts with
  | [] | .ret _ none :: _ => []
  | .ret _ (some e) :: _ => uncheckedValue param e
  | .cond line arms otherwise :: rest =>
    uncheckedBlock (otherwise ++ rest) ++ following (block param (otherwise ++ rest)) fun rule ↦
      uncheckedBranches line arms rest rule
  | .assign _ name value :: rest =>
    if param = some name then
      Term.unchecked param value ++ following (term? param value) fun t ↦
        match t with
        | some (.step offset) =>
          .negation offset :: following (granted .negation (Word.neg? offset)) fun _ ↦
            uncheckedBlock rest
        | _ => []
    else []
  | [.expr _ e] => uncheckedValue param e
  | [.command ..] => []
  | .expr _ _ :: next :: rest | .command _ _ _ _ :: next :: rest => uncheckedBlock (next :: rest)
  | .define .. :: _ | .liveLoop .. :: _ => []
termination_by blockWeight stmts
decreasing_by
  all_goals simp only [blockWeight, blockWeight_append, Stmt.weight]
  all_goals omega

/-- The unchecked numbers on the way to the rule of the branches of a condition. -/
def uncheckedBranches (line : Nat) (arms : List (Expr × List Stmt)) (rest : List Stmt)
    (rule : Rule) : List Unchecked :=
  match arms with
  | [] => []
  | (e, body) :: arms =>
    uncheckedBranches line arms rest rule ++ following (branches param line arms rest rule) fun _ ↦
      uncheckedBlock (body ++ rest) ++ following (block param (body ++ rest)) fun _ ↦
        uncheckedCondition param e
termination_by armsWeight arms + blockWeight rest
decreasing_by
  all_goals simp only [armsWeight, blockWeight_append]
  all_goals omega

end

variable {param}

/-- **The rule of some statements** aborts for the first of its unchecked numbers that does not fit. -/
theorem reveals_rules :
    (∀ stmts, Reveals (block param stmts) (uncheckedBlock param stmts)) ∧
    ∀ line arms rest rule, Reveals (branches param line arms rest rule)
      (uncheckedBranches param line arms rest rule) := by
  -- along the reader, for blocks and branches together
  refine block.mutual_induct param
    (fun stmts ↦ Reveals (block param stmts) (uncheckedBlock param stmts))
    (fun line arms rest rule ↦ Reveals (branches param line arms rest rule)
      (uncheckedBranches param line arms rest rule))
    ?nil ?retNil ?ret ?cond ?assign ?assignOther ?expr ?command ?skipExpr ?skipCommand ?define
    ?liveLoop ?noArms ?arm
  case nil =>
    rw [block, uncheckedBlock]
    exact reveals_ok _
  case retNil =>
    intro line rest
    rw [block, uncheckedBlock]
    exact reveals_ok _
  case ret =>
    intro line e rest
    rw [block, uncheckedBlock]
    exact (reveals_value e).mapError _
  case cond =>
    intro line arms otherwise rest ihotherwise iharms
    rw [block, uncheckedBlock]
    exact ihotherwise.bind fun rule _ ↦ iharms rule
  case assign =>
    intro line name value rest hname ih
    rw [block, uncheckedBlock, if_pos hname, if_pos hname]
    refine (reveals_term? value).bind fun t _ ↦ ?_
    rcases t with - | (n | offset | ⟨offset, modulus⟩)
    case some.step => exact reveals_negation.bind fun _ _ ↦ ih.bind_ok fun _ _ ↦ reveals_ok _
    all_goals exact reveals_refused _
  case assignOther =>
    intro line name value rest hname
    rw [block, uncheckedBlock, if_neg hname, if_neg hname]
    exact reveals_refused _
  case expr =>
    intro line e
    rw [block, uncheckedBlock]
    exact (reveals_value e).mapError _
  case command =>
    intro line name args options
    rw [block, uncheckedBlock]
    exact reveals_ok _
  -- what is not last is left out
  case skipExpr =>
    intro line e next rest ih
    rw [block, uncheckedBlock]
    exact ih.mapError _
  case skipCommand =>
    intro line name args options next rest ih
    rw [block, uncheckedBlock]
    exact ih.mapError _
  case define =>
    intro line name parameter body rest
    rw [block, uncheckedBlock]
    exact reveals_refused _
  case liveLoop =>
    intro line name body rest
    rw [block, uncheckedBlock]
    exact reveals_refused _
  case noArms =>
    intro line rest rule
    rw [branches, uncheckedBranches]
    exact reveals_ok _
  case arm =>
    intro line rest rule e body arms iharms ihbody
    rw [branches, uncheckedBranches]
    refine iharms.bind fun _ _ ↦ ihbody.bind fun _ _ ↦ ?_
    have hcondition : Reveals ((condition param e).mapError (Halt.map (BodyError.atLine line)))
        (uncheckedCondition param e) := (reveals_condition e).mapError _
    exact hcondition.bind_ok fun _ _ ↦ reveals_ok _

end Body

end Script

end StepSequencer
