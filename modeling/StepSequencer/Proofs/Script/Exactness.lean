import StepSequencer.Proofs.Attempts
import StepSequencer.Proofs.Script.Grammar

/-!
# The parser accepts exactly its grammar

What the expression parser reads is spelled by the tokens it took: they are the tokens it was given,
up to those it left, in order and without a gap (`Taken`). The proof is by the parser's own recursion
and with its measure. Where the parser carries what it has read so far, in a chain of operators or of
suffixes, the statement is about whatever spells that.

Together with what is spelled being read, this says that the parser and the grammar agree
(`binaryExpr_exact`).
-/

namespace StepSequencer.Script

open Attempts

/-- The tokens before the rest satisfy a property. -/
def Taken (ts rest : List Token) (q : List Tok → Prop) : Prop :=
  ∃ pre, ts = pre ++ rest ∧ q (pre.map (·.tok))

namespace Taken

variable {ts mid rest : List Token} {q q₁ q₂ : List Tok → Prop}

theorem nothing (h : q []) : Taken ts ts q := ⟨[], rfl, h⟩

theorem cons (t : Token) (h : Taken ts rest q) :
    Taken (t :: ts) rest fun toks ↦ ∃ us, toks = t.tok :: us ∧ q us := by
  obtain ⟨pre, rfl, h⟩ := h
  exact ⟨t :: pre, rfl, _, rfl, h⟩

theorem mono (h : Taken ts rest q₁) (hq : ∀ toks, q₁ toks → q toks) : Taken ts rest q := by
  obtain ⟨pre, hts, h⟩ := h
  exact ⟨pre, hts, hq _ h⟩

theorem append (h₁ : Taken ts mid q₁) (h₂ : Taken mid rest q₂)
    (hq : ∀ as bs, q₁ as → q₂ bs → q (as ++ bs)) : Taken ts rest q := by
  obtain ⟨as, rfl, h₁⟩ := h₁
  obtain ⟨bs, rfl, h₂⟩ := h₂
  refine ⟨as ++ bs, (List.append_assoc ..).symm, ?_⟩
  rw [List.map_append]
  exact hq _ _ h₁ h₂

end Taken

/-! ### What was read is spelled -/

section Reading

variable (lastLine : Nat)

/-- What is read at the levels is spelled by the tokens that were taken. -/
def BinaryTaken (ops : List (List BinaryOp)) (ts : List Token) : Prop :=
  ∀ p, binaryExpr lastLine ops ts = .ok p → Taken ts p.rest (Spells ops · p.value)

/-- Whatever spells the left operand, spells the whole with what was read. -/
def RestTaken (level : List BinaryOp) (tighter : List (List BinaryOp)) (lhs : Expr)
    (ts : List Token) : Prop :=
  ∀ p, binaryRest lastLine level tighter lhs ts = .ok p → Taken ts p.rest fun rs ↦
    ∀ ls, Spells (level :: tighter) ls lhs → Spells (level :: tighter) (ls ++ rs) p.value

/-- What is read as an operand with operators before it is spelled so. -/
def UnaryTaken (ts : List Token) : Prop :=
  ∀ p, unaryExpr lastLine ts = .ok p → Taken ts p.rest (SpellsUnary · p.value)

/-- What is read as an operand with what is applied to it is spelled so. -/
def SuffixedTaken (ts : List Token) : Prop :=
  (next? ts).bind leadingOp? = none →
    ∀ p, suffixed lastLine ts = .ok p → Taken ts p.rest (SpellsSuffixed · p.value)

/-- Whatever spells the receiver, spells the whole with what was read. -/
def SuffixesTaken (receiver : Expr) (ts : List Token) : Prop :=
  ∀ p, suffixes lastLine receiver ts = .ok p → Taken ts p.rest fun ss ↦
    ∀ rs, SpellsSuffixed rs receiver → SpellsSuffixed (rs ++ ss) p.value

/-- What is read as arguments is spelled with the closing parenthesis. -/
def ArgumentsTaken (ts : List Token) : Prop :=
  ∀ p, arguments lastLine ts = .ok p → Taken ts p.rest (SpellsArguments · p.value)

/-- What is read as one argument at least is spelled with the closing parenthesis. -/
def SomeTaken (ts : List Token) : Prop :=
  ∀ p, someArguments lastLine ts = .ok p → Taken ts p.rest (SpellsSome · p.value)

/-- The word `not` is an operator, so it is no operand although it is no keyword. -/
def PrimaryTaken (ts : List Token) : Prop :=
  (next? ts).bind leadingOp? = none →
    ∀ p, primary lastLine ts = .ok p → Taken ts p.rest (SpellsPrimary · p.value)

end Reading

variable {lastLine : Nat} {ops tighter : List (List BinaryOp)} {level : List BinaryOp}
  {ts : List Token}

theorem binaryTaken_nil (h : UnaryTaken lastLine ts) : BinaryTaken lastLine [] ts := by
  intro p hp
  rw [binaryExpr] at hp
  exact (h p hp).mono fun _ h ↦ .unary h

/-- A level reads its left operand one level further in, and goes on from there. -/
theorem binaryTaken_cons (hl : BinaryTaken lastLine tighter ts)
    (hr : ∀ lhs : Parsed ts.length Expr, RestTaken lastLine level tighter lhs.value lhs.rest) :
    BinaryTaken lastLine (level :: tighter) ts := by
  intro p hp
  rw [binaryExpr] at hp
  obtain ⟨lhs, hlhs, hp⟩ := bind_eq_ok_iff.mp hp
  obtain ⟨e, he, hp⟩ := bind_eq_ok_iff.mp hp
  obtain rfl := Except.ok.inj hp
  exact (hl lhs hlhs).append (hr lhs e he) fun _ _ hl hr ↦ hr _ (.tighter hl)

theorem restTaken_nil {lhs : Expr} : RestTaken lastLine level tighter lhs [] := by
  intro p hp
  rw [binaryRest] at hp
  obtain rfl := Except.ok.inj hp
  exact .nothing fun ls hl ↦ (List.append_nil ls).symm ▸ hl

/-- Where no operator of the level follows, the left operand is all. -/
theorem restTaken_stop {lhs : Expr} {t : Token} (h : levelOp? level t.tok = none) :
    RestTaken lastLine level tighter lhs (t :: ts) := by
  intro p hp
  rw [binaryRest] at hp
  split at hp
  · obtain rfl := Except.ok.inj hp
    exact .nothing fun ls hl ↦ (List.append_nil ls).symm ▸ hl
  · next hop => cases h.symm.trans hop

/-- An operator makes a longer left operand of what was read on both sides of it. -/
theorem restTaken_cons {lhs : Expr} {t : Token} {op : BinaryOp} (hop : levelOp? level t.tok = some op)
    (hr : BinaryTaken lastLine tighter ts)
    (he : ∀ rhs : Parsed ts.length Expr,
      RestTaken lastLine level tighter (.binary op lhs rhs.value) rhs.rest) :
    RestTaken lastLine level tighter lhs (t :: ts) := by
  intro p hp
  rw [binaryRest] at hp
  split at hp
  · next hstop => cases hstop.symm.trans hop
  · next op' hop' =>
    obtain rfl := Option.some.inj (hop.symm.trans hop')
    obtain ⟨rhs, hrhs, hp⟩ := bind_eq_ok_iff.mp hp
    obtain ⟨e, hrest, hp⟩ := bind_eq_ok_iff.mp hp
    obtain rfl := Except.ok.inj hp
    refine ((hr rhs hrhs).cons t).append (he rhs e hrest) ?_
    rintro _ bs ⟨as, rfl, hr⟩ he ls hl
    rw [← List.append_assoc]
    exact he _ (.binary hop hl hr)

/-- An operator before the operand. -/
theorem unaryTaken_leading {t : Token} {op : UnaryOp}
    (hop : (next? (t :: ts)).bind leadingOp? = some op) (h : UnaryTaken lastLine ts) :
    UnaryTaken lastLine (t :: ts) := by
  intro p hp
  rw [unaryExpr.eq_def, hop] at hp
  obtain ⟨e, he, hp⟩ := bind_eq_ok_iff.mp hp
  obtain rfl := Except.ok.inj hp
  refine ((h e he).cons t).mono ?_
  rintro _ ⟨toks, rfl, h⟩
  exact .leading hop h

/-- Without an operator before it, the operand may be the base of a power. -/
theorem unaryTaken_operand (hop : (next? ts).bind leadingOp? = none)
    (hbase : SuffixedTaken lastLine ts)
    (hexponent : ∀ (base : Parsed ts.length Expr) (line : Nat) (rest : List Token),
      base.rest = ⟨line, .sign .pow⟩ :: rest → UnaryTaken lastLine rest) :
    UnaryTaken lastLine ts := by
  intro p hp
  rw [unaryExpr.eq_def, hop] at hp
  obtain ⟨base, hb, hp⟩ := bind_eq_ok_iff.mp hp
  split at hp
  · next line rest hrest =>
    obtain ⟨exponent, he, hp⟩ := bind_eq_ok_iff.mp hp
    obtain rfl := Except.ok.inj hp
    have htaken := hbase hop base hb
    rw [hrest] at htaken
    refine htaken.append ((hexponent base line rest hrest exponent he).cons _) ?_
    rintro bs _ hb ⟨es, rfl, he⟩
    exact .power hb he
  · obtain rfl := Except.ok.inj hp
    exact (hbase hop base hb).mono fun _ h ↦ .suffixed h

/-- What is applied to an operand begins after it. -/
theorem suffixedTaken (h : PrimaryTaken lastLine ts)
    (hs : ∀ operand : Parsed ts.length Expr, SuffixesTaken lastLine operand.value operand.rest) :
    SuffixedTaken lastLine ts := by
  intro hop p hp
  rw [suffixed] at hp
  obtain ⟨operand, hoperand, hp⟩ := bind_eq_ok_iff.mp hp
  obtain ⟨e, he, hp⟩ := bind_eq_ok_iff.mp hp
  obtain rfl := Except.ok.inj hp
  exact (h hop operand hoperand).append (hs operand e he) fun _ _ h hs ↦ hs _ (.primary h)

/-! ### Suffixes -/

variable {receiver : Expr} {name : String} {a b c : Nat}

/-- A method with arguments becomes the receiver of what follows. -/
theorem suffixesTaken_call (hargs : ArgumentsTaken lastLine ts)
    (hs : ∀ args : Parsed ts.length (List Expr),
      SuffixesTaken lastLine (.method receiver name args.value) args.rest) :
    SuffixesTaken lastLine receiver (⟨a, .dot⟩ :: ⟨b, .ident name⟩ :: ⟨c, .openParen⟩ :: ts) := by
  intro p hp
  rw [suffixes] at hp
  obtain ⟨args, ha, hp⟩ := bind_eq_ok_iff.mp hp
  obtain ⟨e, he, hp⟩ := bind_eq_ok_iff.mp hp
  obtain rfl := Except.ok.inj hp
  refine ((((hargs args ha).cons _).cons _).cons _).append (hs args e he) ?_
  rintro _ ss ⟨_, rfl, _, rfl, as, rfl, hargs⟩ hs rs hr
  rw [← List.append_assoc]
  exact hs _ (.call hr hargs)

/-- A method without parentheses becomes the receiver of what follows. -/
theorem suffixesTaken_method (hcall : ∀ line rest, ts = ⟨line, .openParen⟩ :: rest → False)
    (hs : SuffixesTaken lastLine (.method receiver name []) ts) :
    SuffixesTaken lastLine receiver (⟨a, .dot⟩ :: ⟨b, .ident name⟩ :: ts) := by
  intro p hp
  rw [suffixes] at hp
  · obtain ⟨e, he, hp⟩ := bind_eq_ok_iff.mp hp
    obtain rfl := Except.ok.inj hp
    refine (((hs e he).cons _).cons _).mono ?_
    rintro _ ⟨_, rfl, ss, rfl, hs⟩ rs hr
    have hwhole := hs _ (.method hr)
    rwa [List.append_assoc] at hwhole
  · exact hcall

/-- After a point there must be a name. -/
theorem suffixesTaken_dot (hcall : ∀ line name line' rest,
      ts = ⟨line, .ident name⟩ :: ⟨line', .openParen⟩ :: rest → False)
    (hmethod : ∀ line name rest, ts = ⟨line, .ident name⟩ :: rest → False) :
    SuffixesTaken lastLine receiver (⟨a, .dot⟩ :: ts) := by
  intro p hp
  rw [suffixes] at hp
  · cases hp
  · exact hcall
  · exact hmethod

/-- An index becomes the receiver of what follows its closing bracket. -/
theorem suffixesTaken_index (hkey : BinaryTaken lastLine levels ts)
    (hs : ∀ (key : Parsed ts.length Expr) (line : Nat) (rest : List Token),
      key.rest = ⟨line, .closeBracket⟩ :: rest →
        SuffixesTaken lastLine (.index receiver key.value) rest) :
    SuffixesTaken lastLine receiver (⟨a, .openBracket⟩ :: ts) := by
  intro p hp
  rw [suffixes] at hp
  obtain ⟨key, hk, hp⟩ := bind_eq_ok_iff.mp hp
  split at hp
  · next line rest hrest =>
    obtain ⟨e, he, hp⟩ := bind_eq_ok_iff.mp hp
    obtain rfl := Except.ok.inj hp
    have htaken := hkey key hk
    rw [hrest] at htaken
    refine (htaken.cons _).append ((hs key line rest hrest e he).cons _) ?_
    rintro _ _ ⟨ks, rfl, hkey⟩ ⟨ss, rfl, hs⟩ rs hr
    have hwhole := hs _ (.index hr hkey)
    rw [List.append_assoc, List.cons_append, List.append_assoc] at hwhole
    exact hwhole
  · cases hp

/-- Any other token ends what is applied to the receiver. -/
theorem suffixesTaken_stop
    (hcall : ∀ line line' name line'' rest,
      ts = ⟨line, .dot⟩ :: ⟨line', .ident name⟩ :: ⟨line'', .openParen⟩ :: rest → False)
    (hmethod : ∀ line line' name rest, ts = ⟨line, .dot⟩ :: ⟨line', .ident name⟩ :: rest → False)
    (hdot : ∀ line rest, ts = ⟨line, .dot⟩ :: rest → False)
    (hindex : ∀ line rest, ts = ⟨line, .openBracket⟩ :: rest → False) :
    SuffixesTaken lastLine receiver ts := by
  intro p hp
  rw [suffixes] at hp
  · obtain rfl := Except.ok.inj hp
    exact .nothing fun rs hr ↦ (List.append_nil rs).symm ▸ hr
  · exact hcall
  · exact hmethod
  · exact hdot
  · exact hindex

/-! ### Arguments -/

theorem argumentsTaken_close : ArgumentsTaken lastLine (⟨a, .closeParen⟩ :: ts) := by
  intro p hp
  rw [arguments] at hp
  obtain rfl := Except.ok.inj hp
  exact ⟨[⟨a, .closeParen⟩], rfl, .none⟩

/-- Arguments that do not close at once are one at least. -/
theorem argumentsTaken_some (hclose : ∀ line rest, ts = ⟨line, .closeParen⟩ :: rest → False)
    (h : SomeTaken lastLine ts) : ArgumentsTaken lastLine ts := by
  intro p hp
  rw [arguments] at hp
  · exact (h p hp).mono fun _ h ↦ .some h
  · exact hclose

/-- After an argument there is the closing parenthesis, or a comma and another one. -/
theorem someTaken (harg : BinaryTaken lastLine levels ts)
    (hargs : ∀ (arg : Parsed ts.length Expr) (line : Nat) (rest : List Token),
      arg.rest = ⟨line, .comma⟩ :: rest → SomeTaken lastLine rest) :
    SomeTaken lastLine ts := by
  intro p hp
  rw [someArguments] at hp
  obtain ⟨arg, ha, hp⟩ := bind_eq_ok_iff.mp hp
  have htaken := harg arg ha
  split at hp
  · next line rest hrest =>
    obtain ⟨args, has, hp⟩ := bind_eq_ok_iff.mp hp
    obtain rfl := Except.ok.inj hp
    rw [hrest] at htaken
    refine htaken.append ((hargs arg line rest hrest args has).cons _) ?_
    rintro toks _ harg ⟨as, rfl, hargs⟩
    exact .more harg hargs
  · next line rest hrest =>
    obtain rfl := Except.ok.inj hp
    rw [hrest] at htaken
    refine htaken.append (Taken.nothing rfl |>.cons _) ?_
    rintro toks _ harg ⟨_, rfl, rfl⟩
    exact .last harg
  · cases hp

/-! ### Operands -/

theorem primaryTaken_literal {tok : Tok} {e : Expr} (h : literal? tok = some e) :
    PrimaryTaken lastLine (⟨a, tok⟩ :: ts) := by
  intro _ p hp
  rw [primary.eq_def] at hp
  dsimp only at hp
  rw [h] at hp
  obtain rfl := Except.ok.inj hp
  exact ⟨[⟨a, tok⟩], rfl, .literal h⟩

/-- Between parentheses the levels begin anew. -/
theorem primaryTaken_paren (h : BinaryTaken lastLine levels ts) :
    PrimaryTaken lastLine (⟨a, .openParen⟩ :: ts) := by
  intro _ p hp
  rw [primary.eq_def] at hp
  obtain ⟨inner, hinner, hp⟩ := bind_eq_ok_iff.mp hp
  split at hp
  · next line rest hrest =>
    obtain rfl := Except.ok.inj hp
    have htaken := h inner hinner
    rw [hrest] at htaken
    refine (htaken.cons _).append (Taken.nothing rfl |>.cons _) ?_
    rintro _ _ ⟨toks, rfl, h⟩ ⟨_, rfl, rfl⟩
    exact .paren h
  · cases hp

/-- A name that is no operator is not the word `not`. -/
theorem not_of_leadingOp?_eq_none (h : leadingOp? (.ident name) = none) : name ≠ "not" := by
  rintro rfl
  cases h

theorem primaryTaken_call (hname : name ∉ keywords) (hargs : ArgumentsTaken lastLine ts) :
    PrimaryTaken lastLine (⟨a, .ident name⟩ :: ⟨b, .openParen⟩ :: ts) := by
  intro hnot p hp
  have hview : view (primary lastLine (⟨a, .ident name⟩ :: ⟨b, .openParen⟩ :: ts)) = .ok p.pair :=
    congrArg view hp
  rw [view_primary_call hname] at hview
  obtain ⟨⟨args, rest⟩, ha, hview⟩ := bind_eq_ok_iff.mp hview
  obtain ⟨hvalue, hrest⟩ := Prod.mk.inj (Except.ok.inj hview)
  obtain ⟨hshorter, ha⟩ := view_eq_ok_iff.mp ha
  rw [← hvalue, ← hrest]
  refine (((hargs _ ha).cons _).cons _).mono ?_
  rintro _ ⟨_, rfl, as, rfl, hargs⟩
  exact .call hname (not_of_leadingOp?_eq_none hnot) hargs

theorem primaryTaken_var (hname : name ∉ keywords)
    (hcall : ∀ line rest, ts = ⟨line, .openParen⟩ :: rest → False) :
    PrimaryTaken lastLine (⟨a, .ident name⟩ :: ts) := by
  intro hnot p hp
  have hnext : next? ts ≠ some .openParen := by
    rcases ts with - | ⟨⟨line, tok⟩, rest⟩
    · rintro ⟨⟩
    · rintro ⟨⟩
      exact hcall line rest rfl
  have hview : view (primary lastLine (⟨a, .ident name⟩ :: ts)) = .ok p.pair := congrArg view hp
  rw [view_primary_var hname hnext] at hview
  obtain ⟨hvalue, hrest⟩ := Prod.mk.inj (Except.ok.inj hview)
  rw [← hvalue, ← hrest]
  exact ⟨[⟨a, .ident name⟩], rfl, .var hname (not_of_leadingOp?_eq_none hnot)⟩

theorem primaryTaken_nil : PrimaryTaken lastLine [] := by
  intro _ p hp
  rw [primary.eq_def] at hp
  cases hp

/-- A reserved word is no operand, unless it is a literal. -/
theorem primaryTaken_keyword (hname : keywords.contains name = true)
    (h : literal? (.ident name) = none) : PrimaryTaken lastLine (⟨a, .ident name⟩ :: ts) := by
  intro _ p hp
  rw [primary.eq_def] at hp
  dsimp only at hp
  rw [h] at hp
  dsimp only at hp
  rw [if_pos hname] at hp
  cases hp

/-- No other token is an operand. -/
theorem primaryTaken_other {tok : Tok} (hparen : tok = .openParen → False)
    (hident : ∀ name, tok = .ident name → False) (h : literal? tok = none) :
    PrimaryTaken lastLine (⟨a, tok⟩ :: ts) := by
  intro _ p hp
  rw [primary.eq_def] at hp
  dsimp only at hp
  rw [h] at hp
  cases tok
  case openParen => exact (hparen rfl).elim
  case ident => exact (hident _ rfl).elim
  all_goals cases hp

/-! ### The parser and the grammar -/

/-- What each of the expression parsers reads is spelled by the tokens it took. -/
structure ExpressionsTaken (lastLine : Nat) : Prop where
  binary : ∀ ops ts, BinaryTaken lastLine ops ts
  rest : ∀ level tighter lhs ts, RestTaken lastLine level tighter lhs ts
  unary : ∀ ts, UnaryTaken lastLine ts
  suffixed : ∀ ts, SuffixedTaken lastLine ts
  suffixes : ∀ receiver ts, SuffixesTaken lastLine receiver ts
  arguments : ∀ ts, ArgumentsTaken lastLine ts
  some : ∀ ts, SomeTaken lastLine ts
  primary : ∀ ts, PrimaryTaken lastLine ts

/-- **What is read is spelled**, by the parser's own recursion. -/
theorem expressionsTaken (lastLine : Nat) : ExpressionsTaken lastLine := by
  -- one case for each equation of the parser's functions
  have ⟨hbinary, hrest, hunary, hsuffixed, hsuffixes, harguments, hsome, hprimary⟩ :=
    binaryExpr.mutual_induct (BinaryTaken lastLine) (RestTaken lastLine) (UnaryTaken lastLine)
      (SuffixedTaken lastLine) (SuffixesTaken lastLine) (ArgumentsTaken lastLine)
      (SomeTaken lastLine) (PrimaryTaken lastLine) ?nil ?cons ?restNil ?restStop ?restCons ?leading
      ?operand ?suffixed ?call ?method ?dot ?index ?stop ?close ?some ?arguments ?none ?literal
      ?paren ?keyword ?named ?var ?other
  case nil => exact fun _ ↦ binaryTaken_nil
  case cons => exact fun _ _ _ ↦ binaryTaken_cons
  case restNil => exact fun _ _ _ ↦ restTaken_nil
  case restStop => exact fun _ _ _ _ _ ↦ restTaken_stop
  case restCons => exact fun _ _ _ _ _ _ ↦ restTaken_cons
  case leading => exact fun _ _ _ ↦ unaryTaken_leading
  case operand =>
    intro ts hop
    refine unaryTaken_operand ?_
    rcases ts with - | ⟨t, ts⟩
    · rfl
    · exact Option.eq_none_iff_forall_ne_some.mpr fun op heq ↦ hop op t ts heq rfl
  case suffixed => exact fun _ ↦ suffixedTaken
  case call => exact fun _ _ _ _ _ _ ↦ suffixesTaken_call
  case method => exact fun _ _ _ _ _ ↦ suffixesTaken_method
  case dot => exact fun _ _ _ ↦ suffixesTaken_dot
  case index => exact fun _ _ _ ↦ suffixesTaken_index
  case stop => exact fun _ _ ↦ suffixesTaken_stop
  case close => exact fun _ _ ↦ argumentsTaken_close
  case some => exact fun _ ↦ argumentsTaken_some
  case arguments => exact fun _ ↦ someTaken
  case none => exact primaryTaken_nil
  case literal => exact fun _ _ _ _ ↦ primaryTaken_literal
  case paren => exact fun _ _ _ ↦ primaryTaken_paren
  case keyword => exact fun _ _ _ ↦ primaryTaken_keyword
  case named =>
    intro _ name hname _ _ _
    exact primaryTaken_call (by rwa [← List.contains_iff_mem])
  case var =>
    intro _ name hname _ hcall _
    exact primaryTaken_var (by rwa [← List.contains_iff_mem]) hcall
  case other => exact fun _ _ _ ↦ primaryTaken_other
  exact ⟨hbinary, hrest, hunary, hsuffixed, hsuffixes, harguments, hsome, hprimary⟩

/-- Whatever an expression parser of some levels reads is spelled by the tokens it took. -/
theorem binaryTaken (lastLine : Nat) (ops : List (List BinaryOp)) (ts : List Token) :
    BinaryTaken lastLine ops ts := (expressionsTaken lastLine).binary ops ts

/-- **The parser accepts exactly its grammar**, from any level on. If it succeeds, then the tokens it
took spell what it read. And whenever the first tokens spell an expression, and the next one, if
there is any, continues none, the parser reads just this expression from just these tokens. -/
theorem binaryExpr_exact (lastLine level : Nat) (ts : List Token) :
    (∀ p, binaryExpr lastLine (levels.drop level) ts = .ok p →
      ∃ pre, ts = pre ++ p.rest ∧ Spells (levels.drop level) (pre.map (·.tok)) p.value) ∧
    (∀ pre rest e, ts = pre ++ rest → Spells (levels.drop level) (pre.map (·.tok)) e →
      (next? rest).all (!continuesExpr ·) = true →
        ∃ p, binaryExpr lastLine (levels.drop level) ts = .ok p ∧ p.value = e ∧ p.rest = rest) := by
  refine ⟨fun p hp ↦ binaryTaken lastLine _ ts p hp, ?_⟩
  rintro pre rest e rfl h hrest
  have hread : view (binaryExpr lastLine (levels.drop level) (pre ++ rest)) = .ok (e, rest) :=
    (h.reads (List.drop_suffix level levels)).view_eq rfl (stops_of_continuesExpr hrest)
  obtain ⟨hshorter, hp⟩ := view_eq_ok_iff.mp hread
  exact ⟨_, hp, rfl, rfl⟩

/-- A power binds its base more tightly than the sign before it does, and a remainder less. -/
theorem binaryExpr_exact_power :
    let toks : List Tok := [.sign .minus, .ident "x", .sign .pow, .int 2, .sign .percent, .int 3]
    let e : Expr := .binary (.arith .rem) (.unary .neg (.binary (.arith .pow) (.var "x") (.int 2)))
      (.int 3)
    let ts : List Token := toks.map (⟨1, ·⟩) ++ [⟨1, .closeParen⟩]
    Spells (levels.drop 4) toks e ∧
      ∃ p, binaryExpr 1 (levels.drop 4) ts = .ok p ∧ p.value = e ∧ p.rest = [⟨1, .closeParen⟩] ∧
        ∃ pre, ts = pre ++ p.rest ∧ Spells (levels.drop 4) (pre.map (·.tok)) p.value := by
  intro toks e ts
  have hx : SpellsSuffixed [.ident "x"] (.var "x") := .primary (.var (by decide) (by decide))
  have hint (n : Int64) : SpellsUnary [.int n] (.int n) := .suffixed (.primary (.literal rfl))
  have hpower : SpellsUnary [.sign .minus, .ident "x", .sign .pow, .int 2]
      (.unary .neg (.binary (.arith .pow) (.var "x") (.int 2))) :=
    .leading rfl (.power hx (hint 2))
  have hspells : Spells (levels.drop 4) toks e :=
    .tighter (.binary rfl (hpower.spells _) ((hint 3).spells _))
  obtain ⟨p, hp, hvalue, hrest⟩ := (binaryExpr_exact 1 4 ts).2 (toks.map (⟨1, ·⟩))
    [⟨1, .closeParen⟩] e rfl hspells rfl
  exact ⟨hspells, p, hp, hvalue, hrest, (binaryExpr_exact 1 4 ts).1 p hp⟩

end StepSequencer.Script
