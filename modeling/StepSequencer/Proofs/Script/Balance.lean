import Mathlib.Data.List.Chain
import StepSequencer.Proofs.Script.Exactness
import StepSequencer.Proofs.Script.Statements

/-!
# Every block is closed

`depth` counts the words that open a block against the words that close one. Tokens in which such
words only begin lines (`WordsFirst`) are read as a script only if their depth is zero
(`depth_of_parseTokens`): a statement and a block leave the depth as it is, and what closes a block
takes one off (`StatementFlat`, `BlockFlat`, `BodyCloses`, `BranchesClose`). The proof is by the
parsers' own recursion.

Words must begin their lines, because a condition may also follow a statement on the statement's
line, where it opens nothing (`Taken.next?_ne_if`).
-/

namespace StepSequencer.Script

open Attempts

/-! ### Depth -/

/-- One for a word that opens a block, and minus one for the word that closes it. -/
def delta : Tok → Int
  | .ident "if" | .ident "define" | .ident "live_loop" => 1
  | .ident "end" => -1
  | _ => 0

/-- The blocks that the tokens open and do not close. -/
def depth : List Tok → Int
  | [] => 0
  | t :: toks => delta t + depth toks

@[simp] theorem depth_cons (t : Tok) (toks : List Tok) : depth (t :: toks) = delta t + depth toks :=
  rfl

@[simp] theorem depth_append (as bs : List Tok) : depth (as ++ bs) = depth as + depth bs := by
  induction as with
  | nil => exact (Int.zero_add _).symm
  | cons t as ih => rw [List.cons_append, depth_cons, ih, depth_cons, Int.add_assoc]

/-- Tokens of which none opens or closes a block have no depth. -/
theorem depth_of_flat {toks : List Tok} (h : ∀ t ∈ toks, delta t = 0) : depth toks = 0 := by
  induction toks with
  | nil => rfl
  | cons t toks ih =>
    rw [depth_cons, h t List.mem_cons_self, ih fun u hu ↦ h u (List.mem_cons_of_mem t hu)]
    rfl

/-- A name opens and closes nothing, unless it is a reserved word. -/
theorem delta_ident {name : String} (hname : name ∉ keywords) : delta (.ident name) = 0 := by
  rw [delta.eq_def]
  split
  case h_5 => rfl
  all_goals
    next heq =>
      cases heq
      exact absurd (by decide) hname

/-- A literal opens and closes nothing, though `true`, `false` and `nil` are words. -/
theorem delta_of_literal? {tok : Tok} {e : Expr} (h : literal? tok = some e) : delta tok = 0 := by
  rw [literal?.eq_def] at h
  split at h
  case h_8 => cases h
  all_goals rfl

/-- An operator between two operands opens and closes nothing. -/
theorem delta_of_levelOp? {level : List BinaryOp} {tok : Tok} {op : BinaryOp}
    (h : levelOp? level tok = some op) : delta tok = 0 := by
  obtain ⟨s, rfl, -⟩ := levelOp?_eq_some_iff.mp h
  rfl

/-- An operator before its operand opens and closes nothing, though `not` is a word. -/
theorem delta_of_leadingOp? {tok : Tok} {op : UnaryOp} (h : leadingOp? tok = some op) :
    delta tok = 0 := by
  rw [leadingOp?.eq_def] at h
  split at h
  case h_4 => cases h
  all_goals rfl

/-! ### Words at the beginning of lines -/

/-- A word that opens or closes a block begins its line. -/
def WordsFirst (toks : List Tok) : Prop := toks.IsChain fun t u ↦ t = .newline ∨ delta u = 0

namespace WordsFirst

variable {as bs toks : List Tok} {t u : Tok}

theorem left (h : WordsFirst (as ++ bs)) : WordsFirst as := List.IsChain.left_of_append h

theorem right (h : WordsFirst (as ++ bs)) : WordsFirst bs := List.IsChain.right_of_append h

theorem tail (h : WordsFirst (t :: toks)) : WordsFirst toks := List.IsChain.tail h

/-- A token of a line that is not its first neither opens nor closes a block. -/
theorem next (h : WordsFirst (t :: u :: toks)) : t = .newline ∨ delta u = 0 :=
  (List.isChain_cons_cons.mp h).1

theorem append (ha : WordsFirst as) (hb : WordsFirst bs)
    (h : ∀ t ∈ as.getLast?, ∀ u ∈ bs.head?, t = .newline ∨ delta u = 0) : WordsFirst (as ++ bs) :=
  List.isChain_append.mpr ⟨ha, hb, h⟩

/-- Without a token that ends no line. -/
theorem delete (h : WordsFirst (as ++ t :: bs)) (ht : t ≠ .newline) : WordsFirst (as ++ bs) := by
  refine h.left.append h.right.tail fun x _ u hu ↦ .inr ?_
  rcases bs with - | ⟨b, bs⟩
  · cases hu
  · obtain rfl := Option.some.inj hu
    exact h.right.next.resolve_left ht

end WordsFirst

/-! ### What is on one line -/

mutual

theorem Spells.flat {ops : List (List BinaryOp)} {toks : List Tok} {e : Expr} :
    Spells ops toks e → WordsFirst toks → ∀ t ∈ toks, delta t = 0
  | .unary h => h.flat
  | .tighter h => h.flat
  | .binary hop hl hr => fun hwords ↦
    List.forall_mem_append.mpr ⟨hl.flat hwords.left,
      List.forall_mem_cons.mpr ⟨delta_of_levelOp? hop, hr.flat hwords.right.tail⟩⟩

theorem SpellsUnary.flat {toks : List Tok} {e : Expr} :
    SpellsUnary toks e → WordsFirst toks → ∀ t ∈ toks, delta t = 0
  | .leading hop h => fun hwords ↦
    List.forall_mem_cons.mpr ⟨delta_of_leadingOp? hop, h.flat hwords.tail⟩
  | .suffixed h => h.flat
  | .power hb he => fun hwords ↦
    List.forall_mem_append.mpr ⟨hb.flat hwords.left,
      List.forall_mem_cons.mpr ⟨rfl, he.flat hwords.right.tail⟩⟩

theorem SpellsSuffixed.flat {toks : List Tok} {e : Expr} :
    SpellsSuffixed toks e → WordsFirst toks → ∀ t ∈ toks, delta t = 0
  | .primary h => h.flat
  | .call h hargs => fun hwords ↦
    List.forall_mem_append.mpr ⟨h.flat hwords.left, List.forall_mem_cons.mpr ⟨rfl,
      List.forall_mem_cons.mpr ⟨hwords.right.next.resolve_left (by rintro ⟨⟩),
        List.forall_mem_cons.mpr ⟨rfl, hargs.flat hwords.right.tail.tail.tail⟩⟩⟩⟩
  | .method h => fun hwords ↦
    List.forall_mem_append.mpr ⟨h.flat hwords.left, List.forall_mem_cons.mpr ⟨rfl,
      List.forall_mem_cons.mpr ⟨hwords.right.next.resolve_left (by rintro ⟨⟩),
        List.forall_mem_nil _⟩⟩⟩
  | .index h hkey => fun hwords ↦
    List.forall_mem_append.mpr ⟨h.flat hwords.left, List.forall_mem_cons.mpr ⟨rfl,
      List.forall_mem_append.mpr ⟨hkey.flat hwords.right.tail.left,
        List.forall_mem_singleton.mpr rfl⟩⟩⟩

theorem SpellsPrimary.flat {toks : List Tok} {e : Expr} :
    SpellsPrimary toks e → WordsFirst toks → ∀ t ∈ toks, delta t = 0
  | .literal h => fun _ ↦ List.forall_mem_singleton.mpr (delta_of_literal? h)
  | .paren h => fun hwords ↦ List.forall_mem_cons.mpr ⟨rfl,
      List.forall_mem_append.mpr ⟨h.flat hwords.tail.left, List.forall_mem_singleton.mpr rfl⟩⟩
  | .var hname _ => fun _ ↦ List.forall_mem_singleton.mpr (delta_ident hname)
  | .call hname _ hargs => fun hwords ↦ List.forall_mem_cons.mpr ⟨delta_ident hname,
      List.forall_mem_cons.mpr ⟨rfl, hargs.flat hwords.tail.tail⟩⟩

theorem SpellsArguments.flat {toks : List Tok} {args : List Expr} :
    SpellsArguments toks args → WordsFirst toks → ∀ t ∈ toks, delta t = 0
  | .none => fun _ ↦ List.forall_mem_singleton.mpr rfl
  | .some h => h.flat

theorem SpellsSome.flat {toks : List Tok} {args : List Expr} :
    SpellsSome toks args → WordsFirst toks → ∀ t ∈ toks, delta t = 0
  | .last h => fun hwords ↦
    List.forall_mem_append.mpr ⟨h.flat hwords.left, List.forall_mem_singleton.mpr rfl⟩
  | .more h hargs => fun hwords ↦
    List.forall_mem_append.mpr ⟨h.flat hwords.left,
      List.forall_mem_cons.mpr ⟨rfl, hargs.flat hwords.right.tail⟩⟩

end

/-- The tokens stand on one line, and no word among them opens or closes a block. -/
structure OneLine (toks : List Tok) : Prop where
  nonempty : toks ≠ []
  unbroken : Unbroken toks
  flat : WordsFirst toks → ∀ t ∈ toks, delta t = 0

namespace OneLine

variable {as bs : List Tok}

theorem single {t : Tok} (hnewline : t.isNewline = false) (hdelta : delta t = 0) : OneLine [t] :=
  ⟨List.cons_ne_nil _ _, unbroken_cons.mpr ⟨hnewline, unbroken_nil⟩,
    fun _ ↦ List.forall_mem_singleton.mpr hdelta⟩

theorem append (ha : OneLine as) (hb : OneLine bs) : OneLine (as ++ bs) :=
  ⟨List.append_ne_nil_of_left_ne_nil ha.nonempty _, unbroken_append.mpr ⟨ha.unbroken, hb.unbroken⟩,
    fun h ↦ List.forall_mem_append.mpr ⟨ha.flat h.left, hb.flat h.right⟩⟩

theorem cons {t : Tok} (hnewline : t.isNewline = false) (hdelta : delta t = 0) (h : OneLine as) :
    OneLine (t :: as) := (single hnewline hdelta).append h

/-- The last token ends no line. -/
theorem getLast?_ne (h : OneLine as) : as.getLast? ≠ some .newline := by
  intro hlast
  cases h.unbroken _ (List.mem_of_getLast? hlast)

end OneLine

/-- An expression stands on one line. -/
theorem Spells.oneLine {ops : List (List BinaryOp)} {toks : List Tok} {e : Expr}
    (h : Spells ops toks e) : OneLine toks := by
  refine ⟨?_, h.unbroken, h.flat⟩
  obtain ⟨t, ts, rfl, -⟩ := h.startsExpr
  exact List.cons_ne_nil t ts

/-! ### What the parsers take for a line -/

variable {lastLine : Nat} {ts rest : List Token}

/-- The parser of expressions takes no more than one line. -/
theorem expression_taken {p : Parsed ts.length Expr} (h : expression lastLine ts = .ok p) :
    Taken ts p.rest OneLine :=
  (binaryTaken lastLine levels ts p h).mono fun _ ↦ Spells.oneLine

/-- The arguments and options of a call without parentheses stand on one line, up to the first one
that no comma follows. -/
theorem commandArguments_taken (named : Bool) (ts : List Token) :
    ∀ p, commandArguments lastLine named ts = .ok p → Taken ts p.rest OneLine := by
  induction named, ts using commandArguments.induct with
  | case1 named line key ts ih =>
    intro p hp
    rw [commandArguments] at hp
    obtain ⟨value, hvalue, hp⟩ := bind_eq_ok_iff.mp hp
    have htaken := (expression_taken hvalue).cons ⟨line, .label key⟩
    split at hp
    · next comma rest hrest =>
      -- the option, its comma, and what the rest takes
      obtain ⟨more, hmore, hp⟩ := bind_eq_ok_iff.mp hp
      obtain rfl := Except.ok.inj hp
      rw [hrest] at htaken
      refine htaken.append ((ih value comma rest hrest more hmore).cons _) ?_
      rintro _ _ ⟨as, rfl, has⟩ ⟨bs, rfl, hbs⟩
      exact (has.cons rfl rfl).append (hbs.cons rfl rfl)
    · obtain rfl := Except.ok.inj hp
      refine htaken.mono ?_
      rintro _ ⟨as, rfl, has⟩
      exact has.cons rfl rfl
  | case2 ts hlabel =>
    intro p hp
    rw [commandArguments] at hp
    · cases hp
    · exact hlabel
  | case3 named ts hlabel hnamed ih =>
    intro p hp
    rw [commandArguments] at hp
    · rw [if_neg hnamed] at hp
      obtain ⟨arg, harg, hp⟩ := bind_eq_ok_iff.mp hp
      have htaken := expression_taken harg
      split at hp
      · next comma rest hrest =>
        obtain ⟨more, hmore, hp⟩ := bind_eq_ok_iff.mp hp
        obtain rfl := Except.ok.inj hp
        rw [hrest] at htaken
        refine htaken.append ((ih arg comma rest hrest more hmore).cons _) ?_
        rintro as _ has ⟨bs, rfl, hbs⟩
        exact has.append (hbs.cons rfl rfl)
      · obtain rfl := Except.ok.inj hp
        exact htaken
    · exact hlabel

/-- An expression that is a statement stands on one line. -/
theorem wholeExpression_taken {line : Nat} {p : Parsed ts.length Stmt}
    (h : simpleStatement.wholeExpression lastLine line ts = .ok p) : Taken ts p.rest OneLine := by
  rw [simpleStatement.wholeExpression] at h
  obtain ⟨value, hvalue, h⟩ := bind_eq_ok_iff.mp h
  obtain rfl := Except.ok.inj h
  exact expression_taken hvalue

/-- A statement that holds no others stands on one line. A `return` may stand alone. -/
theorem simpleStatement_taken {p : Parsed ts.length Stmt}
    (h : simpleStatement lastLine ts = .ok p) : Taken ts p.rest OneLine := by
  rw [simpleStatement.eq_def] at h
  dsimp only at h
  split at h
  · next line ts =>
    -- a return, with a value or without
    have hreturn : OneLine [.ident "return"] := .single rfl rfl
    split at h
    · obtain rfl := Except.ok.inj h
      exact ⟨[⟨line, .ident "return"⟩], rfl, hreturn⟩
    · obtain ⟨value, hvalue, h⟩ := bind_eq_ok_iff.mp h
      obtain rfl := Except.ok.inj h
      refine ((expression_taken hvalue).cons _).mono ?_
      rintro _ ⟨as, rfl, has⟩
      exact has.cons rfl rfl
  · next line name ts _ =>
    split at h
    · exact wholeExpression_taken h
    · next hname =>
      -- any other name opens and closes nothing: an assignment, a command or an expression
      have hdelta : delta (.ident name) = 0 := delta_ident (by rwa [← List.contains_iff_mem])
      split at h
      · obtain ⟨value, hvalue, h⟩ := bind_eq_ok_iff.mp h
        obtain rfl := Except.ok.inj h
        refine (((expression_taken hvalue).cons _).cons _).mono ?_
        rintro _ ⟨_, rfl, as, rfl, has⟩
        exact (has.cons rfl rfl).cons rfl hdelta
      · split at h
        · obtain ⟨parts, hparts, h⟩ := bind_eq_ok_iff.mp h
          obtain rfl := Except.ok.inj h
          refine ((commandArguments_taken false _ parts hparts).cons _).mono ?_
          rintro _ ⟨as, rfl, has⟩
          exact has.cons rfl hdelta
        · exact wholeExpression_taken h
  · exact wholeExpression_taken h

/-- The name of a function or of a loop is one symbol. -/
theorem symbolName_taken {p : Parsed ts.length String} (h : symbolName lastLine ts = .ok p) :
    Taken ts p.rest fun toks ↦ ∃ name, toks = [.symbol name] := by
  rw [symbolName.eq_def] at h
  split at h
  · next line name ts =>
    obtain rfl := Except.ok.inj h
    exact ⟨[⟨line, .symbol name⟩], rfl, name, rfl⟩
  · cases h

/-- The word that opens a body is one token. -/
theorem doWord_taken {p : Parsed ts.length Unit} (h : doWord lastLine ts = .ok p) :
    Taken ts p.rest (· = [.ident "do"]) := by
  rw [doWord.eq_def] at h
  split at h
  · next line ts =>
    obtain rfl := Except.ok.inj h
    exact ⟨[⟨line, .ident "do"⟩], rfl, rfl⟩
  · cases h

/-- The parameter of a function stands between two bars, or is left out. -/
theorem parameter?_taken {p : Parsed (ts.length + 1) (Option String)}
    (h : parameter? lastLine ts = .ok p) :
    Taken ts p.rest fun toks ↦ ∃ param, toks = parameterToks param := by
  rw [parameter?.eq_def] at h
  split at h
  · next a b name c ts =>
    obtain rfl := Except.ok.inj h
    exact ⟨[⟨a, .pipe⟩, ⟨b, .ident name⟩, ⟨c, .pipe⟩], rfl, some name, rfl⟩
  · cases h
  · cases h
  · obtain rfl := Except.ok.inj h
    exact .nothing ⟨none, rfl⟩

/-- A parameter that begins no line opens and closes nothing, whatever its name is. -/
theorem depth_parameterToks {param : Option String} (h : WordsFirst (parameterToks param)) :
    depth (parameterToks param) = 0 := by
  rcases param with - | param
  · rfl
  · have hparam : delta (.ident param) = 0 := h.next.resolve_left (by rintro ⟨⟩)
    show delta .pipe + (delta (.ident param) + _) = 0
    rw [hparam]
    rfl

/-! ### What the parsers take for a block -/

/-- The tokens before the rest are of a depth. -/
def Takes (ts rest : List Token) (n : Int) : Prop := Taken ts rest (depth · = n)

namespace Takes

variable {mid : List Token} {m n : Int}

theorem append (h₁ : Takes ts mid m) (h₂ : Takes mid rest n) : Takes ts rest (m + n) :=
  Taken.append h₁ h₂ fun as bs has hbs ↦ by rw [depth_append, has, hbs]

theorem cons (t : Token) (h : Takes ts rest n) : Takes (t :: ts) rest (delta t.tok + n) := by
  refine (Taken.cons t h).mono ?_
  rintro _ ⟨toks, rfl, h⟩
  rw [depth_cons, h]

end Takes

/-- What is left begins its lines as all the tokens do. -/
theorem Taken.wordsFirst {q : List Tok → Prop} (h : Taken ts rest q)
    (hwords : WordsFirst (ts.map (·.tok))) : WordsFirst (rest.map (·.tok)) := by
  obtain ⟨pre, rfl, -⟩ := h
  rw [List.map_append] at hwords
  exact hwords.right

/-- The depth of what was taken, if words begin their lines. -/
theorem Taken.takes {q : List Tok → Prop} {n : Int} (h : Taken ts rest q)
    (hwords : WordsFirst (ts.map (·.tok))) (hq : ∀ toks, WordsFirst toks → q toks → depth toks = n) :
    Takes ts rest n := by
  obtain ⟨pre, rfl, h⟩ := h
  rw [List.map_append] at hwords
  exact ⟨pre, rfl, hq _ hwords.left h⟩

/-- What was taken for a line leaves the depth as it is. -/
theorem Taken.takes_oneLine (h : Taken ts rest OneLine) (hwords : WordsFirst (ts.map (·.tok))) :
    Takes ts rest 0 := h.takes hwords fun _ hwords h ↦ depth_of_flat (h.flat hwords)

/-- The name of a block leaves the depth as it is. -/
theorem symbolName_takes {p : Parsed ts.length String} (h : symbolName lastLine ts = .ok p) :
    Takes ts p.rest 0 := by
  refine (symbolName_taken h).mono ?_
  rintro _ ⟨name, rfl⟩
  rfl

/-- The word that opens a body does not count: the word before its name does. -/
theorem doWord_takes {p : Parsed ts.length Unit} (h : doWord lastLine ts = .ok p) :
    Takes ts p.rest 0 := by
  refine (doWord_taken h).mono ?_
  rintro _ rfl
  rfl

/-- The parameter of a function leaves the depth as it is. -/
theorem parameter?_takes {p : Parsed (ts.length + 1) (Option String)}
    (h : parameter? lastLine ts = .ok p) (hwords : WordsFirst (ts.map (·.tok))) :
    Takes ts p.rest 0 := by
  refine (parameter?_taken h).takes hwords ?_
  rintro _ hwords ⟨param, rfl⟩
  exact depth_parameterToks hwords

/-- After a line that has not ended, no condition opens a block. -/
theorem Taken.next?_ne_if (h : Taken ts rest fun toks ↦ toks ≠ [] ∧ toks.getLast? ≠ some .newline)
    (hwords : WordsFirst (ts.map (·.tok))) : next? rest ≠ some (.ident "if") := by
  obtain ⟨pre, rfl, hne, hlast⟩ := h
  rcases rest with - | ⟨⟨line, tok⟩, rest⟩
  · rintro ⟨⟩
  rintro ⟨⟩
  rw [List.map_append, List.map_cons] at hwords
  obtain ⟨last, hmem⟩ := Option.ne_none_iff_exists'.mp (mt List.getLast?_eq_none_iff.mp hne)
  rcases (List.isChain_append.mp hwords).2.2 last hmem _ rfl with hnewline | hdelta
  · exact hlast (hnewline ▸ hmem)
  · cases hdelta

/-- Without a condition behind it, a statement takes nothing more. -/
theorem withCondition_rest {n : Nat} {p q : Parsed n Stmt} (h : next? p.rest ≠ some (.ident "if"))
    (hq : withCondition lastLine p = .ok q) : q.rest = p.rest := by
  have hview : view (withCondition lastLine p) = .ok p.pair := view_withCondition_stop h
  rw [hq] at hview
  exact congrArg Prod.snd (Except.ok.inj hview)

section

variable (lastLine)

/-- A block goes on up to a closing word, and leaves the depth as it is. -/
def BlockFlat (ts : List Token) : Prop :=
  WordsFirst (ts.map (·.tok)) → ∀ p, block lastLine ts = .ok p →
    Takes ts p.rest 0 ∧ (p.rest = [] ∨ (Closer.at? p.rest).isSome = true)

def StatementFlat (ts : List Token) : Prop :=
  WordsFirst (ts.map (·.tok)) → ∀ p, statement lastLine ts = .ok p → Takes ts p.rest 0

/-- A body takes the word that closes it, and ends there. -/
def BodyCloses (what : String) (ts : List Token) : Prop :=
  WordsFirst (ts.map (·.tok)) → ∀ p, closedBody lastLine what ts = .ok p →
    Takes ts p.rest (-1) ∧ next? p.rest ≠ some (.ident "if")

/-- The branches of a condition take the word that closes it. -/
def BranchesClose (ifLine : Nat) (ts : List Token) : Prop :=
  WordsFirst (ts.map (·.tok)) → ∀ p, branches lastLine ifLine ts = .ok p → Takes ts p.rest (-1)

end

/-- Each word that closes a block is one name. -/
theorem tok_of_ofTok? {t : Tok} {c : Closer} (h : Closer.ofTok? t = some c) :
    t = .ident c.text := by
  rw [Closer.ofTok?.eq_def] at h
  split at h
  case h_4 => cases h
  all_goals
    obtain rfl := Option.some.inj h
    rfl

/-- The end of a line opens and closes nothing. -/
theorem delta_of_isNewline {t : Tok} (h : t.isNewline = true) : delta t = 0 := by
  cases t
  case newline => rfl
  all_goals cases h

theorem blockFlat_nil : BlockFlat lastLine [] := by
  intro _ p hp
  rw [block] at hp
  obtain rfl := Except.ok.inj hp
  exact ⟨.nothing rfl, .inl rfl⟩

theorem blockFlat_newline {t : Token} (ht : t.tok.isNewline = true) (h : BlockFlat lastLine ts) :
    BlockFlat lastLine (t :: ts) := by
  intro hwords p hp
  rw [block, if_pos ht] at hp
  obtain ⟨q, hq, hp⟩ := bind_eq_ok_iff.mp hp
  obtain rfl := Except.ok.inj hp
  obtain ⟨htakes, hends⟩ := h hwords.tail q hq
  have hwhole := htakes.cons t
  rw [delta_of_isNewline ht] at hwhole
  exact ⟨hwhole, hends⟩

/-- A block ends before a word that closes it, with nothing taken. -/
theorem blockFlat_closer {t : Token} (hnewline : ¬t.tok.isNewline = true)
    (ht : (Closer.ofTok? t.tok).isSome = true) : BlockFlat lastLine (t :: ts) := by
  intro _ p hp
  rw [block, if_neg hnewline, if_pos ht] at hp
  obtain rfl := Except.ok.inj hp
  exact ⟨.nothing rfl, .inr ht⟩

/-- A statement and the block behind it, each of no depth. -/
theorem blockFlat_statement {t : Token} (hnewline : ¬t.tok.isNewline = true)
    (hcloser : ¬(Closer.ofTok? t.tok).isSome = true) (hs : StatementFlat lastLine (t :: ts))
    (h : ∀ s : Parsed (t :: ts).length Stmt, BlockFlat lastLine s.rest) :
    BlockFlat lastLine (t :: ts) := by
  intro hwords p hp
  rw [block, if_neg hnewline, if_neg hcloser] at hp
  obtain ⟨s, hstatement, hp⟩ := bind_eq_ok_iff.mp hp
  split at hp
  · obtain ⟨ss, hblock, hp⟩ := bind_eq_ok_iff.mp hp
    obtain rfl := Except.ok.inj hp
    have htakes := hs hwords s hstatement
    obtain ⟨hblock, hends⟩ := h s (htakes.wordsFirst hwords) ss hblock
    exact ⟨htakes.append hblock, hends⟩
  · cases hp

/-- What a condition opens, its branches close. -/
theorem statementFlat_if {line : Nat}
    (hbody : ∀ cond : Parsed ts.length Expr, BlockFlat lastLine cond.rest)
    (hbranches : ∀ (cond : Parsed ts.length Expr) (body : Parsed (cond.rest.length + 1) (List Stmt)),
      BranchesClose lastLine line body.rest) :
    StatementFlat lastLine (⟨line, .ident "if"⟩ :: ts) := by
  intro hwords p hp
  rw [statement] at hp
  obtain ⟨cond, hc, hp⟩ := bind_eq_ok_iff.mp hp
  obtain ⟨body, hb, hp⟩ := bind_eq_ok_iff.mp hp
  obtain ⟨rest, hr, hp⟩ := bind_eq_ok_iff.mp hp
  obtain rfl := Except.ok.inj hp
  have hcond := (expression_taken hc).takes_oneLine hwords.tail
  have hwords := hcond.wordsFirst hwords.tail
  obtain ⟨hblock, -⟩ := hbody cond hwords body hb
  have hclose := hbranches cond body (hblock.wordsFirst hwords) rest hr
  exact ((hcond.append hblock).append hclose).cons _

/-- What a definition opens, its body closes. No condition follows the closing word on its line. -/
theorem statementFlat_define {line : Nat}
    (hbody : ∀ (name : Parsed ts.length String) (opened : Parsed name.rest.length Unit)
      (param : Parsed (opened.rest.length + 1) (Option String)),
      BodyCloses lastLine "define" param.rest) :
    StatementFlat lastLine (⟨line, .ident "define"⟩ :: ts) := by
  intro hwords p hp
  rw [statement] at hp
  obtain ⟨name, hn, hp⟩ := bind_eq_ok_iff.mp hp
  obtain ⟨opened, ho, hp⟩ := bind_eq_ok_iff.mp hp
  obtain ⟨param, hpa, hp⟩ := bind_eq_ok_iff.mp hp
  obtain ⟨body, hb, hp⟩ := bind_eq_ok_iff.mp hp
  have hname := symbolName_takes hn
  have hwords := hname.wordsFirst hwords.tail
  have hopened := doWord_takes ho
  have hwords := hopened.wordsFirst hwords
  have hparam := parameter?_takes hpa hwords
  obtain ⟨hclose, hif⟩ := hbody name opened param (hparam.wordsFirst hwords) body hb
  rw [withCondition_rest hif hp]
  exact (((hname.append hopened).append hparam).append hclose).cons _

/-- What a loop opens, its body closes. -/
theorem statementFlat_liveLoop {line : Nat}
    (hbody : ∀ (name : Parsed ts.length String) (opened : Parsed name.rest.length Unit),
      BodyCloses lastLine "live_loop" opened.rest) :
    StatementFlat lastLine (⟨line, .ident "live_loop"⟩ :: ts) := by
  intro hwords p hp
  rw [statement] at hp
  obtain ⟨name, hn, hp⟩ := bind_eq_ok_iff.mp hp
  obtain ⟨opened, ho, hp⟩ := bind_eq_ok_iff.mp hp
  obtain ⟨body, hb, hp⟩ := bind_eq_ok_iff.mp hp
  have hname := symbolName_takes hn
  have hwords := hname.wordsFirst hwords.tail
  have hopened := doWord_takes ho
  obtain ⟨hclose, hif⟩ := hbody name opened (hopened.wordsFirst hwords) body hb
  rw [withCondition_rest hif hp]
  exact ((hname.append hopened).append hclose).cons _

/-- A statement without a body stands on one line, after which no condition follows on it. -/
theorem statementFlat_simple (hif : ∀ line rest, ts = ⟨line, .ident "if"⟩ :: rest → False)
    (hdefine : ∀ line rest, ts = ⟨line, .ident "define"⟩ :: rest → False)
    (hloop : ∀ line rest, ts = ⟨line, .ident "live_loop"⟩ :: rest → False) :
    StatementFlat lastLine ts := by
  intro hwords p hp
  rw [statement] at hp
  · obtain ⟨s, hs, hp⟩ := bind_eq_ok_iff.mp hp
    have htaken := simpleStatement_taken hs
    rw [withCondition_rest ((htaken.mono fun _ h ↦ ⟨h.nonempty, h.getLast?_ne⟩).next?_ne_if hwords) hp]
    exact htaken.takes_oneLine hwords
  · exact hif
  · exact hdefine
  · exact hloop

/-- A body is a block and the one closing word that a body may end with. -/
theorem bodyCloses {what : String} (h : BlockFlat lastLine ts) : BodyCloses lastLine what ts := by
  intro hwords p hp
  rw [closedBody] at hp
  obtain ⟨body, hb, hp⟩ := bind_eq_ok_iff.mp hp
  obtain ⟨hblock, -⟩ := h hwords body hb
  have hrest := hblock.wordsFirst hwords
  split at hp
  · cases hp
  · next t rest heq =>
    rw [heq] at hblock hrest
    split at hp
    · next hcloser =>
      obtain rfl := Except.ok.inj hp
      have hend : t.tok = .ident "end" := tok_of_ofTok? hcloser
      have hclose : Takes (t :: rest) rest (-1) := ⟨[t], rfl, by rw [List.map_singleton, hend]; rfl⟩
      refine ⟨hblock.append hclose, Taken.next?_ne_if ⟨[t], rfl, List.cons_ne_nil _ _, ?_⟩ hrest⟩
      rw [List.map_singleton, hend, List.getLast?_singleton]
      rintro ⟨⟩
    · cases hp
    · cases hp

/-- No branch is left at the word that closes the condition. -/
theorem branchesClose_finish {ifLine : Nat} {t : Token} (ht : Closer.ofTok? t.tok = some .finish) :
    BranchesClose lastLine ifLine (t :: ts) := by
  intro _ p hp
  rw [branches, ht] at hp
  obtain rfl := Except.ok.inj hp
  exact ⟨[t], rfl, by rw [List.map_singleton, tok_of_ofTok? ht]; rfl⟩

/-- A further branch leaves the depth as it is, as its word opens nothing. -/
theorem branchesClose_elseIf {ifLine : Nat} {t : Token} (ht : Closer.ofTok? t.tok = some .elseIf)
    (hbody : ∀ cond : Parsed ts.length Expr, BlockFlat lastLine cond.rest)
    (hbranches : ∀ (cond : Parsed ts.length Expr) (body : Parsed (cond.rest.length + 1) (List Stmt)),
      BranchesClose lastLine ifLine body.rest) :
    BranchesClose lastLine ifLine (t :: ts) := by
  intro hwords p hp
  rw [branches, ht] at hp
  obtain ⟨cond, hc, hp⟩ := bind_eq_ok_iff.mp hp
  obtain ⟨body, hb, hp⟩ := bind_eq_ok_iff.mp hp
  obtain ⟨rest, hr, hp⟩ := bind_eq_ok_iff.mp hp
  obtain rfl := Except.ok.inj hp
  have hcond := (expression_taken hc).takes_oneLine hwords.tail
  have hwords := hcond.wordsFirst hwords.tail
  obtain ⟨hblock, -⟩ := hbody cond hwords body hb
  have hclose := hbranches cond body (hblock.wordsFirst hwords) rest hr
  have hwhole := ((hcond.append hblock).append hclose).cons t
  rwa [tok_of_ofTok? ht] at hwhole

/-- After the last branch there is nothing but the closing word. -/
theorem branchesClose_otherwise {ifLine : Nat} {t : Token}
    (ht : Closer.ofTok? t.tok = some .otherwise) (hbody : BlockFlat lastLine ts) :
    BranchesClose lastLine ifLine (t :: ts) := by
  intro hwords p hp
  rw [branches, ht] at hp
  obtain ⟨body, hb, hp⟩ := bind_eq_ok_iff.mp hp
  obtain ⟨hblock, -⟩ := hbody hwords.tail body hb
  split at hp
  · next line rest heq =>
    obtain rfl := Except.ok.inj hp
    rw [heq] at hblock
    have hclose : Takes (⟨line, .ident "end"⟩ :: rest) rest (-1) := ⟨[⟨line, .ident "end"⟩], rfl, rfl⟩
    have hwhole := (hblock.append hclose).cons t
    rwa [tok_of_ofTok? ht] at hwhole
  · cases hp

theorem branchesClose_nil {ifLine : Nat} : BranchesClose lastLine ifLine [] := by
  intro _ p hp
  rw [branches] at hp
  cases hp

/-- Any other token closes no condition. -/
theorem branchesClose_none {ifLine : Nat} {t : Token} (ht : Closer.ofTok? t.tok = none) :
    BranchesClose lastLine ifLine (t :: ts) := by
  intro _ p hp
  rw [branches, ht] at hp
  cases hp

/-- **Blocks leave the depth as it is**, by the parsers' own recursion. -/
theorem blockFlat (lastLine : Nat) (ts : List Token) : BlockFlat lastLine ts := by
  refine (block.mutual_induct (BlockFlat lastLine) (StatementFlat lastLine) (BodyCloses lastLine)
    (BranchesClose lastLine) ?nil ?newline ?closer ?statement ?cond ?define ?liveLoop ?simple ?body
    ?noBranches ?finish ?elseIf ?otherwise ?none).1 ts
  case nil => exact blockFlat_nil
  case newline => exact fun _ _ ↦ blockFlat_newline
  case closer => exact fun _ _ ↦ blockFlat_closer
  case statement => exact fun _ _ ↦ blockFlat_statement
  case cond => exact fun _ _ ↦ statementFlat_if
  case define => exact fun _ _ ↦ statementFlat_define
  case liveLoop => exact fun _ _ ↦ statementFlat_liveLoop
  case simple => exact fun _ ↦ statementFlat_simple
  case body => exact fun _ _ ↦ bodyCloses
  case noBranches => exact fun _ ↦ branchesClose_nil
  case finish => exact fun _ _ _ ↦ branchesClose_finish
  case elseIf => exact fun _ _ _ ↦ branchesClose_elseIf
  case otherwise => exact fun _ _ _ ↦ branchesClose_otherwise
  case none => exact fun _ _ _ ↦ branchesClose_none

/-- **Every block is closed** in tokens that are read as a script. -/
theorem depth_of_parseTokens (hwords : WordsFirst (ts.map (·.tok))) {ss : List Stmt}
    (h : parseTokens ts = .ok ss) : depth (ts.map (·.tok)) = 0 := by
  rw [parseTokens] at h
  obtain ⟨p, hp, h⟩ := bind_eq_ok_iff.mp h
  obtain ⟨htakes, hends⟩ := blockFlat _ ts hwords p hp
  split at h
  · cases h
  · next hcloser =>
    have hrest : p.rest = [] := hends.resolve_right (by rw [hcloser]; exact Bool.false_ne_true)
    obtain ⟨pre, hts, hdepth⟩ := htakes
    rw [hrest, List.append_nil] at hts
    rw [hts]
    exact hdepth

end StepSequencer.Script
