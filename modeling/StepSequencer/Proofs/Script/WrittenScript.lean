import Mathlib.Data.List.Forall2
import StepSequencer.Proofs.Script.Quoting
import StepSequencer.Proofs.Script.Statements
import StepSequencer.Proofs.Script.WrittenConditions
import StepSequencer.Script.Reading

/-!
# How scripts are written

The text of a track is lines that are read as the statements of its script: settings, one definition
for each slot, and two live loops. `WrittenLines text q` says so of any piece of the text, for a
property `q` of the statements; the pieces are put together by `WrittenLines.append`.

`RuleBody`, `IsDefinition`, `IsSampleLine`, `IsLoop` and `IsScript` describe the statements that come
out, up to the lines they stand on. A preset's values come out as expressions that are worth them
(`Worth`), whatever their text looks like, as long as it is read back as the value (`ReadsBack`).
-/

namespace StepSequencer

open Script (Expr Stmt)

/-! ### What comes out -/

/-- The expression for an answer. -/
def Outcome.tree : Outcome → Expr
  | .true => .bool Bool.true
  | .false => .bool Bool.false
  | .nil => .nil
  | .sentinel value => Word.tree value

/-- No number is a float or the least word. -/
def Rule.IsExact : Rule → Prop
  | .answer (.sentinel value) => value ≠ Int64.minValue
  | .answer _ => True
  | .test condition taken otherwise =>
    condition.IsExact ∧ taken.IsExact ∧ otherwise.IsExact
  | .rebase shift rule => shift ≠ Int64.minValue ∧ rule.IsExact

/-- The statements are those that a rule is written as. -/
def RuleBody : Rule → List Stmt → Prop
  | .answer outcome, body => ∃ line, body = [.ret line (some outcome.tree)]
  | .test condition taken otherwise, body => ∃ line s t,
      body = [.cond line [(condition.tree, s)] t] ∧ RuleBody taken s ∧ RuleBody otherwise t
  | .rebase shift rule, body => ∃ line rest,
      body = .assign line "x" (Word.shiftTree (-shift)) :: rest ∧ RuleBody rule rest

namespace Script

/-- The expression is a number that becomes the 32-bit float, whatever is set. -/
def Worth (v : Float32) (e : Expr) : Prop :=
  ∀ env : Env, ∃ x, env.number e = .ok x ∧ (Binary.ofDouble x).toSingle = v

/-- The decimal text of the float, after a minus if it begins with one, is one number, which becomes
the same float. -/
def ReadsBack (v : Float32) : Prop :=
  ∃ digits tok x, IsNumber digits tok ∧ tok.number? = some x ∧
    ((NumberLayout.plain.single v).toList = digits ∧ (Binary.ofDouble x).toSingle = v ∨
      (NumberLayout.plain.single v).toList = '-' :: digits ∧ (Binary.ofDouble (-x)).toSingle = v)

/-- The arguments that choose a slot's sample. -/
def sampleArgs (s : Slot) : List Expr :=
  match s.source with
  | .folder => [.var "samps", .int (Int64.ofNat s.id.toNat)]
  | .bundled name => [.symbol name]

/-- An option for each setting, in writing order. -/
def OptionsOf (p : Preset) (keys : List PresetKey) (options : List (String × Expr)) : Prop :=
  List.Forall₂ (fun key option ↦ option.1 = key.name ∧ Worth (p.get key) option.2) keys options

/-- The statement defines the rule of the slot. -/
def IsDefinition (s : Slot) (stmt : Stmt) : Prop :=
  ∃ line body, stmt = .define line s.label (some "x") body ∧ RuleBody s.rule body

/-- The statement plays the sample of the slot where its function says so. -/
def IsSampleLine (s : Slot) (stmt : Stmt) : Prop :=
  ∃ line line' options,
    stmt = .cond line [(.call s.label [.var "idx"],
      [.command line' "sample" (sampleArgs s) options])] [] ∧
    OptionsOf s.preset PresetKey.all options

/-- The statement is a live loop that ticks, plays the slots, and sleeps. -/
def IsLoop (name : String) (slots : List Slot) (stmt : Stmt) : Prop :=
  ∃ line first last samples,
    stmt = .liveLoop line name
      (.assign first "idx" (.method (.var "downbeat_count") "tick" []) :: (samples ++
        [.command last "sleep" [.index (.var "get") (.symbol "downbeat_time")] []])) ∧
    List.Forall₂ IsSampleLine slots samples

/-- The statements are those of the track's script: settings, definitions, and two live loops. -/
def IsScript (t : Track) (stmts : List Stmt) : Prop :=
  ∃ l₁ l₂ l₃ l₄ bpm beats definitions folderLoop bundledLoop,
    stmts = .assign l₁ "samps" (.str t.samplesDir) :: .command l₂ "use_bpm" [bpm] [] ::
      .assign l₃ "downbeat_count"
        (.call "range" [.int 0, .int (Int64.ofNat t.stepCount.toNat), .int 1]) ::
      .command l₄ "set" [.symbol "downbeat_time", beats] [] ::
      (definitions ++ [folderLoop, bundledLoop]) ∧
    Worth t.bpm bpm ∧ Worth t.beatsPerStep beats ∧
    List.Forall₂ IsDefinition t.slots definitions ∧
    IsLoop "extracted_samples" (t.slots.filter (·.source.isFolder)) folderLoop ∧
    IsLoop "sonic_pi_samples" (t.slots.filter (!·.source.isFolder)) bundledLoop

end Script

/-! ### What is asked of a track -/

open Script (isFunctionName isName keywords ReadsBack)

/-- The label can be written as the name of a function, and what the slot holds is read back. -/
structure Slot.IsWritable (s : Slot) : Prop where
  label : isFunctionName s.label = true
  notKeyword : s.label ∉ keywords
  notOperator : s.label ≠ "not"
  sample : ∀ name, s.source = .bundled name → isName name = true
  rule : s.rule.IsExact
  preset : ∀ key, ReadsBack (s.preset.get key)

/-- The track can be played, and what it holds is read back. -/
structure Track.IsWritable (t : Track) : Prop where
  valid : t.validate = .ok ()
  named : t.name ≠ ""
  nonempty : t.slots ≠ []
  slots : ∀ s ∈ t.slots, s.IsWritable
  distinct : (t.slots.map (·.label)).Nodup
  numbered : Script.firstBundled t.slots + (t.slots.filter (!·.source.isFolder)).length ≤ 2 ^ 16
  bpm : ReadsBack t.bpm
  beatsPerStep : ReadsBack t.beatsPerStep

namespace Script

/-! ### Lines -/

/-- The text is lines that are read as statements with the property. -/
def WrittenLines (text : List Char) (q : List Stmt → Prop) : Prop :=
  ∃ toks, Lines toks ∧ BlockReads toks q ∧ ∀ rest, Lexes text toks rest

theorem Lines.append {as bs : List Tok} (ha : Lines as) (hb : Lines bs) : Lines (as ++ bs) := by
  induction ha with
  | nil => exact hb
  | line hne hunbroken _ ih =>
    rw [List.append_assoc, List.cons_append]
    exact .line hne hunbroken ih

theorem lines_single {l : List Tok} (hne : l ≠ []) (h : Unbroken l) : Lines (l ++ [Tok.newline]) :=
  .line hne h .nil

theorem lexes_tabs (depth : Nat) (rest : List Char) :
    Lexes (List.replicate depth '\t') [] rest := by
  induction depth with
  | zero => exact .nil
  | succ depth ih =>
    have htab : Lexes ['\t'] [] (List.replicate depth '\t' ++ rest) := .of_lexemes (n := 1) rfl
    exact htab.append ih

/-- A line of any depth. -/
theorem lexes_line {text : String} {toks : List Tok}
    (h : ∀ rest, Lexes text.toList toks ('\n' :: rest)) (depth : Nat) (rest : List Char) :
    Lexes (lineText depth text).toList (toks ++ [Tok.newline]) rest := by
  have hbreak : Lexes ['\n'] [.newline] rest := .of_lexemes (n := 1) rfl
  rw [lineText, String.toList_append, String.toList_append, String.toList_ofList, List.append_assoc]
  exact (lexes_tabs depth _).append ((h rest).append hbreak)

namespace WrittenLines

variable {a b : List Char} {q r : List Stmt → Prop}

theorem nil : WrittenLines [] (· = []) := ⟨[], .nil, .nil, fun _ ↦ .nil⟩

theorem append (ha : WrittenLines a q) (hb : WrittenLines b r) :
    WrittenLines (a ++ b) fun ss ↦ ∃ s t, ss = s ++ t ∧ q s ∧ r t := by
  obtain ⟨as, hlines, hreads, hlexes⟩ := ha
  obtain ⟨bs, hlines', hreads', hlexes'⟩ := hb
  exact ⟨as ++ bs, hlines.append hlines', hreads.append hreads',
    fun rest ↦ (hlexes _).append (hlexes' rest)⟩

theorem mono (h : WrittenLines a q) (himp : ∀ ss, q ss → r ss) : WrittenLines a r := by
  obtain ⟨toks, hlines, hreads, hlexes⟩ := h
  exact ⟨toks, hlines, hreads.mono himp, hlexes⟩

end WrittenLines

/-- A statement on one line. -/
theorem line_written {text : String} {toks : List Tok} {p : Stmt → Prop}
    (hlexes : ∀ rest, Lexes text.toList toks ('\n' :: rest)) (hreads : StatementReads toks p)
    (hunbroken : Unbroken toks) (depth : Nat) :
    WrittenLines (lineText depth text).toList fun ss ↦ ∃ s, ss = [s] ∧ p s := by
  have hne : toks ≠ [] := by
    obtain ⟨t, ts, rfl, -⟩ := hreads.begins
    exact List.cons_ne_nil t ts
  exact ⟨toks ++ [Tok.newline], lines_single hne hunbroken, hreads.line, lexes_line hlexes depth⟩

theorem Written.line {text : String} {p : Stmt → Prop} (depth : Nat)
    (h : Written text.toList fun toks ↦ StatementReads toks p ∧ Unbroken toks) :
    WrittenLines (lineText depth text).toList fun ss ↦ ∃ s, ss = [s] ∧ p s := by
  obtain ⟨toks, ⟨hreads, hunbroken⟩, hlexes⟩ := h
  exact line_written (fun rest ↦ hlexes ('\n' :: rest) rfl) hreads hunbroken depth

/-- A word on a line of its own. -/
theorem lexes_word (word : String) (h : isName word = true) (rest : List Char) :
    Lexes word.toList [.ident word] ('\n' :: rest) := lexes_name h rfl

/-! ### Rules -/

theorem outcome_written {outcome : Outcome} (h : (Rule.answer outcome).IsExact) :
    Written (outcomeText outcome).toList (Spells levels · outcome.tree) := by
  cases outcome with
  | true => exact (Written.name (s := "true") rfl (.literal rfl)).mono fun _ h ↦ h.unary.spells _
  | false => exact (Written.name (s := "false") rfl (.literal rfl)).mono fun _ h ↦ h.unary.spells _
  | nil => exact (Written.name (s := "nil") rfl (.literal rfl)).mono fun _ h ↦ h.unary.spells _
  | sentinel value => exact (whole_written h).mono fun _ h ↦ h.1.spells _

/-- A fixed text before a piece. -/
theorem Written.after {before a : List Char} {toks : List Tok} {p : List Tok → Prop}
    (hbefore : ∀ rest, Lexes before toks rest) (h : Written a p) :
    Written (before ++ a) fun ts ↦ ∃ rest, ts = toks ++ rest ∧ p rest := by
  obtain ⟨rest, hp, hlexes⟩ := h
  exact ⟨toks ++ rest, ⟨rest, rfl, hp⟩, fun more hmore ↦ (hbefore _).append (hlexes more hmore)⟩

/-- A line that returns the value of an expression. -/
theorem return_written (depth : Nat) {text : String} {e : Expr}
    (h : Written text.toList (Spells levels · e)) :
    WrittenLines (lineText depth ("return " ++ text)).toList fun ss ↦
      ∃ line, ss = [.ret line (some e)] := by
  have hreturn (rest) : Lexes "return ".toList [.ident "return"] rest := .of_lexemes (n := 2) rfl
  have hline : Written ("return " ++ text).toList fun toks ↦
      StatementReads toks (fun s ↦ ∃ line, s = .ret line (some e)) ∧ Unbroken toks := by
    rw [String.toList_append]
    refine (h.after hreturn).mono ?_
    rintro _ ⟨toks, rfl, hspells⟩
    exact ⟨(simpleReads_return hspells).statement, unbroken_cons.mpr ⟨rfl, hspells.unbroken⟩⟩
  refine (hline.line depth).mono ?_
  rintro _ ⟨_, rfl, line, rfl⟩
  exact ⟨line, rfl⟩

/-- A line that reassigns the step. -/
theorem assign_written (depth : Nat) {text : String} {e : Expr}
    (h : Written text.toList (Spells levels · e)) :
    WrittenLines (lineText depth ("x = " ++ text)).toList fun ss ↦
      ∃ line, ss = [.assign line "x" e] := by
  have hassign (rest) : Lexes "x = ".toList [.ident "x", .sign .assign] rest :=
    .of_lexemes (n := 4) rfl
  have hline : Written ("x = " ++ text).toList fun toks ↦
      StatementReads toks (fun s ↦ ∃ line, s = .assign line "x" e) ∧ Unbroken toks := by
    rw [String.toList_append]
    refine (h.after hassign).mono ?_
    rintro _ ⟨toks, rfl, hspells⟩
    refine ⟨(simpleReads_assign (by decide) hspells).statement, ?_⟩
    exact unbroken_cons.mpr ⟨rfl, unbroken_cons.mpr ⟨rfl, hspells.unbroken⟩⟩
  refine (hline.line depth).mono ?_
  rintro _ ⟨_, rfl, line, rfl⟩
  exact ⟨line, rfl⟩

/-- A condition with its two branches. -/
theorem cond_written (depth : Nat) {text : String} {e : Expr} {a b : String} {q r : List Stmt → Prop}
    (he : Written text.toList (Spells levels · e)) (ha : WrittenLines a.toList q)
    (hb : WrittenLines b.toList r) :
    WrittenLines (lineText depth ("if " ++ text) ++ a ++ lineText depth "else" ++ b
      ++ lineText depth "end").toList fun ss ↦
        ∃ line s t, ss = [.cond line [(e, s)] t] ∧ q s ∧ r t := by
  have hif (rest) : Lexes "if ".toList [.ident "if"] rest := .of_lexemes (n := 2) rfl
  obtain ⟨_, ⟨cs, rfl, hcond⟩, hlexes⟩ := he.after hif
  obtain ⟨as, halines, hareads, halexes⟩ := ha
  obtain ⟨bs, hblines, hbreads, hblexes⟩ := hb
  have hfirst : Unbroken (.ident "if" :: cs) := unbroken_cons.mpr ⟨rfl, hcond.unbroken⟩
  have helse : Lines [.ident "else", .newline] :=
    lines_single (List.cons_ne_nil _ []) (unbroken_cons.mpr ⟨rfl, unbroken_nil⟩)
  have hend : Lines [.ident "end", .newline] :=
    lines_single (List.cons_ne_nil _ []) (unbroken_cons.mpr ⟨rfl, unbroken_nil⟩)
  refine ⟨(.ident "if" :: cs ++ [Tok.newline]) ++ as ++ [Tok.ident "else", .newline] ++ bs ++
    [Tok.ident "end", .newline], ?_, ?_, ?_⟩
  · exact ((((lines_single (List.cons_ne_nil _ cs) hfirst).append halines).append helse).append
      hblines).append hend
  · have hreads := (statementReads_cond hcond hareads hbreads).line
    simp only [List.cons_append, List.append_assoc, List.nil_append] at hreads ⊢
    refine hreads.mono ?_
    rintro _ ⟨_, rfl, line, s, t, rfl, hs, ht⟩
    exact ⟨line, s, t, rfl, hs, ht⟩
  · intro rest
    rw [← String.toList_append] at hlexes
    have hfirst (rest) := hlexes ('\n' :: rest) rfl
    rw [String.toList_append, String.toList_append, String.toList_append, String.toList_append]
    exact ((((lexes_line hfirst depth _).append (halexes _)).append
      (lexes_line (lexes_word _ rfl) depth _)).append (hblexes _)).append
      (lexes_line (lexes_word _ rfl) depth rest)

/-- **A rule** is written as a function body. -/
theorem rule_written (depth : Nat) {rule : Rule} (h : rule.IsExact) :
    WrittenLines (ruleText depth rule).toList (RuleBody rule) := by
  induction rule generalizing depth with
  | answer outcome => exact return_written depth (outcome_written h)
  | test condition taken otherwise iht iho =>
    have hcondition := (condition_written condition h.1).mono
      fun _ hspells ↦ hspells.loosen comparisonLevels_suffix
    exact cond_written depth hcondition (iht (depth + 1) h.2.1) (iho (depth + 1) h.2.2)
  | rebase shift rule ih =>
    have hshift := (shifted_written (Word.neg_ne_minValue h.1)).mono
      fun _ hspells ↦ hspells.unary.spells levels
    rw [ruleText, String.toList_append]
    refine ((assign_written depth hshift).append (ih depth h.2)).mono ?_
    rintro _ ⟨_, rest, rfl, ⟨line, rfl⟩, hrest⟩
    exact ⟨line, rest, rfl, hrest⟩

/-! ### Numbers and options -/

/-- A number token is its literal. -/
theorem number_spells {tok : Tok} {x : Float} (h : tok.number? = some x) :
    ∃ e, SpellsPrimary [tok] e ∧ startsArgument tok = true ∧
      ∀ env : Env, env.number e = .ok x := by
  rcases tok
  case int n =>
    obtain rfl := Option.some.inj h
    exact ⟨.int n, .literal rfl, rfl, fun env ↦ (by rw [Env.number])⟩
  case float y =>
    obtain rfl := Option.some.inj h
    exact ⟨.float y, .literal rfl, rfl, fun env ↦ (by rw [Env.number])⟩
  all_goals cases h

theorem isNumber_written {digits : List Char} {tok : Tok} (h : IsNumber digits tok) :
    Written digits (· = [tok]) :=
  ⟨[tok], rfl, fun _ hrest ↦ lexes_number h (endsNumber_of_ends hrest)⟩

/-- A float that is read back. -/
theorem single_written {v : Float32} (h : ReadsBack v) :
    ∃ e, Worth v e ∧ Written (NumberLayout.plain.single v).toList (SpellsUnary · e) := by
  obtain ⟨digits, tok, x, hdigits, hx, ⟨htext, hv⟩ | ⟨htext, hv⟩⟩ := h
  · obtain ⟨e, hspells, -, he⟩ := number_spells hx
    refine ⟨e, fun env ↦ ⟨x, he env, hv⟩, ?_⟩
    rw [htext]
    refine (isNumber_written hdigits).mono ?_
    rintro _ rfl
    exact hspells.unary
  · obtain ⟨e, hspells, -, he⟩ := number_spells hx
    refine ⟨.unary .neg e, fun env ↦ ⟨-x, by rw [Env.number, he env]; rfl, hv⟩, ?_⟩
    have hplain : Written digits (SpellsUnary · e) := by
      refine (isNumber_written hdigits).mono ?_
      rintro _ rfl
      exact hspells.unary
    rw [htext]
    exact hplain.neg

/-- A float without a minus can be the argument of a call without parentheses. -/
theorem positive_written {v : Float32} (h : ReadsBack v)
    (hpositive : (NumberLayout.plain.single v).toList.head? ≠ some '-') :
    ∃ e, Worth v e ∧ Written (NumberLayout.plain.single v).toList fun toks ↦
      Spells levels toks e ∧ toks.head?.any startsArgument = true := by
  obtain ⟨digits, tok, x, hdigits, hx, ⟨htext, hv⟩ | ⟨htext, hv⟩⟩ := h
  · obtain ⟨e, hspells, hstarts, he⟩ := number_spells hx
    refine ⟨e, fun env ↦ ⟨x, he env, hv⟩, ?_⟩
    rw [htext]
    refine (isNumber_written hdigits).mono ?_
    rintro _ rfl
    exact ⟨hspells.unary.spells _, hstarts⟩
  · rw [htext] at hpositive
    exact absurd rfl hpositive

theorem isName_presetKey (key : PresetKey) : isName key.name = true := by
  cases key <;> rfl

/-- One option. -/
theorem option_written {p : Preset} {key : PresetKey} (h : ReadsBack (p.get key)) :
    ∃ e, Worth (p.get key) e ∧
      Written (key.name ++ ": " ++ NumberLayout.plain.single (p.get key)).toList fun toks ↦
        ∃ vs, toks = .label key.name :: vs ∧ Spells levels vs e := by
  obtain ⟨e, hworth, vs, hspells, hlexes⟩ := single_written h
  refine ⟨e, hworth, .label key.name :: vs, ⟨vs, rfl, hspells.spells _⟩, ?_⟩
  intro rest hrest
  have hblank : Lexes [' '] [] ((NumberLayout.plain.single (p.get key)).toList ++ rest) :=
    .of_lexemes (n := 1) rfl
  have hlabel (more) : Lexes (key.name.toList ++ [':']) [.label key.name] more :=
    lexes_label (isName_presetKey key)
  have hwhole := (hlabel _).append (hblank.append (hlexes rest hrest))
  rw [String.toList_append, String.toList_append]
  simp only [List.append_assoc] at hwhole ⊢
  exact hwhole

/-- The options of a preset. -/
theorem options_written {p : Preset} (keys : List PresetKey) (hne : keys ≠ [])
    (h : ∀ key ∈ keys, ReadsBack (p.get key)) :
    Written (", ".intercalate (keys.map fun key ↦
      key.name ++ ": " ++ NumberLayout.plain.single (p.get key))).toList fun toks ↦
        ∃ options, OptionsOf p keys options ∧ ∀ named, SpellsParts named toks [] options := by
  induction keys with
  | nil => exact absurd rfl hne
  | cons key keys ih =>
    rw [List.forall_mem_cons] at h
    obtain ⟨e, hworth, hoption⟩ := option_written h.1
    rcases keys with - | ⟨next, keys⟩
    · rw [List.map_singleton, String.intercalate_singleton]
      refine hoption.mono ?_
      rintro _ ⟨vs, rfl, hspells⟩
      exact ⟨[(key.name, e)], List.Forall₂.cons ⟨rfl, hworth⟩ .nil, fun _ ↦ .option hspells⟩
    · obtain ⟨ts, ⟨options, hoptions, hparts⟩, hlexes'⟩ := ih (List.cons_ne_nil _ _) h.2
      obtain ⟨_, ⟨vs, rfl, hspells⟩, hlexes⟩ := hoption
      refine ⟨.label key.name :: (vs ++ .comma :: ts),
        ⟨(key.name, e) :: options, List.Forall₂.cons ⟨rfl, hworth⟩ hoptions,
          fun _ ↦ .moreOptions hspells (hparts true)⟩, ?_⟩
      intro rest hrest
      have hcomma (more) : Lexes ", ".toList [.comma] more := .of_lexemes (n := 2) rfl
      rw [List.map_cons, List.map_cons, String.intercalate_cons_cons, String.toList_append,
        String.toList_append, List.append_assoc]
      exact (hlexes _ rfl).append ((hcomma _).append (hlexes' rest hrest))

/-! ### Slots -/

theorem isName_of_isFunctionName {s : String} (h : isFunctionName s = true) : isName s = true := by
  rcases hchars : s.toList with - | ⟨c, cs⟩
  · simp only [isFunctionName, hchars, Bool.false_eq_true] at h
  · simp only [isFunctionName, hchars] at h
    simp only [isName, hchars]
    rw [Bool.and_eq_true] at h ⊢
    refine ⟨?_, h.2⟩
    show (c.isUpper || c.isLower || c == '_') = true
    rcases Bool.or_eq_true_iff.mp h.1 with hlower | hunderscore
    · rw [hlower, Bool.or_true, Bool.true_or]
    · rw [hunderscore, Bool.or_true]

theorem toInt_ofNat_of_lt {n : Nat} (h : n < 2 ^ 32) : (Int64.ofNat n).toInt = n :=
  Int64.toInt_ofNat_of_lt (by omega)

/-- A text before a comma. -/
theorem lexes_comma (rest : List Char) : Lexes ", ".toList [.comma] rest := .of_lexemes (n := 2) rfl

/-- What a sample line plays, before its options. -/
theorem sample_written {s : Slot} (h : ∀ name, s.source = .bundled name → isName name = true) :
    ∃ toks, (∀ rest, Lexes ((sampleText s).toList ++ ", ".toList)
        (.ident "sample" :: (toks ++ [Tok.comma])) rest) ∧
      toks.head?.any startsArgument = true ∧
      ∀ ts options, SpellsParts false ts [] options →
        SpellsParts false (toks ++ .comma :: ts) (sampleArgs s) options := by
  rcases hsource : s.source with - | name
  case folder =>
    have hid : (Int64.ofNat s.id.toNat).toInt = s.id.toNat :=
      toInt_ofNat_of_lt (by have := s.id.toNat_lt; omega)
    have htext : sampleText s = "sample samps, " ++ toString s.id.toNat := by
      rw [sampleText, hsource]
    have hargs : sampleArgs s = [.var "samps", .int (Int64.ofNat s.id.toNat)] := by
      rw [sampleArgs, hsource]
    refine ⟨[.ident "samps", .comma, .int (Int64.ofNat s.id.toNat)], ?_, rfl, ?_⟩
    · intro rest
      have hfolder (more) : Lexes "sample samps, ".toList [.ident "sample", .ident "samps", .comma]
          more := .of_lexemes (n := 5) rfl
      rw [htext, String.toList_append, Nat.toString_eq_repr, Nat.toList_repr, List.append_assoc]
      exact (hfolder _).append ((lexes_number (isNumber_toDigits hid) rfl).append (lexes_comma rest))
    · intro ts options hparts
      have hsamps : Spells levels [.ident "samps"] (.var "samps") :=
        (SpellsPrimary.var (by decide) (by decide)).unary.spells _
      have hindex : Spells levels [.int (Int64.ofNat s.id.toNat)] (.int (Int64.ofNat s.id.toNat)) :=
        (SpellsPrimary.literal rfl).unary.spells _
      have hall := SpellsParts.moreArguments hsamps (.moreArguments hindex hparts)
      rwa [hargs]
  case bundled =>
    have htext : sampleText s = "sample :" ++ name := by rw [sampleText, hsource]
    have hargs : sampleArgs s = [.symbol name] := by rw [sampleArgs, hsource]
    refine ⟨[.symbol name], ?_, rfl, ?_⟩
    · intro rest
      have hword (more) : Lexes "sample ".toList [.ident "sample"] more := .of_lexemes (n := 2) rfl
      rw [htext, String.toList_append, List.append_assoc]
      exact (hword _).append ((lexes_symbol (h name hsource) rfl).append (lexes_comma rest))
    · intro ts options hparts
      have hsymbol : Spells levels [.symbol name] (.symbol name) :=
        (SpellsPrimary.literal rfl).unary.spells _
      rw [hargs]
      exact .moreArguments hsymbol hparts

/-- A call of a function with the current step. -/
theorem call_written {name : String} (hname : isName name = true) (hkeyword : name ∉ keywords)
    (hnot : name ≠ "not") :
    ∃ toks, Spells levels toks (.call name [.var "idx"]) ∧
      ∀ rest, Lexes (name.toList ++ "(idx)".toList) toks rest := by
  have hindex : Spells levels [.ident "idx"] (.var "idx") :=
    (SpellsPrimary.var (by decide) (by decide)).unary.spells _
  refine ⟨.ident name :: .openParen :: ([Tok.ident "idx"] ++ [Tok.closeParen]),
    (SpellsPrimary.call hkeyword hnot (.some (.last hindex))).unary.spells _, ?_⟩
  intro rest
  have hcall : Lexes "(idx)".toList [.openParen, .ident "idx", .closeParen] rest :=
    .of_lexemes (n := 3) rfl
  exact (lexes_name hname rfl).append hcall

/-- The guard of a sample line. -/
theorem guard_written {s : Slot} (h : s.IsWritable) :
    ∃ toks, Spells levels toks (.call s.label [.var "idx"]) ∧
      ∀ rest, Lexes (s.label.toList ++ "(idx)".toList) toks rest :=
  call_written (isName_of_isFunctionName h.label) h.notKeyword h.notOperator

/-- **The sample line** of a slot. -/
theorem sampleLine_written {s : Slot} (h : s.IsWritable) :
    WrittenLines (sampleLineText s.label s).toList fun ss ↦ ∃ stmt, ss = [stmt] ∧ IsSampleLine s stmt := by
  obtain ⟨cs, hchoice, hstarts, hparts⟩ := sample_written h.sample
  obtain ⟨os, ⟨options, hoptions, hspells⟩, hoslexes⟩ :=
    options_written PresetKey.all (List.cons_ne_nil _ _) fun key _ ↦ h.preset key
  obtain ⟨gs, hguard, hgslexes⟩ := guard_written h
  have hparts' := hparts os options (hspells false)
  have hfirst : (cs ++ .comma :: os).head?.any startsArgument = true := by
    rcases cs with - | ⟨c, cs⟩
    · cases hstarts
    · exact hstarts
  have hcommand : SimpleReads (.ident "sample" :: (cs ++ .comma :: os)) _ :=
    simpleReads_command (by decide) hparts' hfirst
  have hif (rest) : Lexes " if ".toList [.ident "if"] rest := .of_lexemes (n := 3) rfl
  have hline : Written (sampleText s ++ ", " ++ optionsText s.preset ++ " if " ++ s.label ++
      "(idx)").toList fun toks ↦ StatementReads toks (IsSampleLine s) ∧ Unbroken toks := by
    refine ⟨.ident "sample" :: (cs ++ .comma :: os) ++ .ident "if" :: gs, ⟨?_, ?_⟩, ?_⟩
    · refine (hcommand.guarded hguard).mono ?_
      rintro _ ⟨line, _, rfl, line', rfl⟩
      exact ⟨line, line', options, rfl, hoptions⟩
    · exact unbroken_append.mpr ⟨unbroken_cons.mpr ⟨rfl, hparts'.unbroken⟩,
        unbroken_cons.mpr ⟨rfl, hguard.unbroken⟩⟩
    · intro rest hrest
      have hwhole := (hchoice _).append ((hoslexes _ rfl).append ((hif _).append (hgslexes rest)))
      simp only [String.toList_append, List.append_assoc, List.cons_append, List.nil_append] at hwhole ⊢
      exact hwhole
  exact hline.line 1

/-- The line that opens a definition of a function of the step. -/
theorem lexes_define {name : String} (hname : isName name = true) (rest : List Char) :
    Lexes ("define :" ++ name ++ " do |x|").toList
      [.ident "define", .symbol name, .ident "do", .pipe, .ident "x", .pipe] ('\n' :: rest) := by
  have hdefine (more) : Lexes "define ".toList [.ident "define"] more := .of_lexemes (n := 2) rfl
  have hopen : Lexes " do |x|".toList [.ident "do", .pipe, .ident "x", .pipe] ('\n' :: rest) :=
    .of_lexemes (n := 6) rfl
  have hsymbol := lexes_symbol hname
    (show endsName (" do |x|".toList ++ '\n' :: rest) = true from rfl)
  rw [String.toList_append, String.toList_append, List.append_assoc]
  exact (hdefine _).append (hsymbol.append hopen)

/-- A definition of a function of the step. -/
theorem define_written {name text : String} {q : List Stmt → Prop} (hname : isName name = true)
    (h : WrittenLines text.toList q) :
    WrittenLines (lineText 0 ("define :" ++ name ++ " do |x|") ++ text ++ lineText 0 "end").toList
      fun ss ↦ ∃ line body, ss = [.define line name (some "x") body] ∧ q body := by
  obtain ⟨bs, hlines, hreads, hbslexes⟩ := h
  refine ⟨[Tok.ident "define", .symbol name, .ident "do", .pipe, .ident "x", .pipe] ++
    [Tok.newline] ++ bs ++ [Tok.ident "end", .newline], ?_, ?_, ?_⟩
  · refine ((lines_single (List.cons_ne_nil _ _) ?_).append hlines).append
      (lines_single (List.cons_ne_nil (Tok.ident "end") []) ?_)
    · simp [Tok.isNewline]
    · exact unbroken_cons.mpr ⟨rfl, unbroken_nil⟩
  · have hdefinition := (statementReads_define name (some "x") hreads).line
    simp only [parameterToks, List.cons_append, List.append_assoc, List.nil_append] at hdefinition ⊢
    refine hdefinition.mono ?_
    rintro _ ⟨_, rfl, line, body, rfl, hbody⟩
    exact ⟨line, body, rfl, hbody⟩
  · intro rest
    rw [String.toList_append, String.toList_append]
    exact ((lexes_line (lexes_define hname) 0 _).append (hbslexes _)).append
      (lexes_line (lexes_word _ rfl) 0 rest)

/-- **The definition** of a slot's rule. -/
theorem definition_written {s : Slot} (h : s.IsWritable) :
    WrittenLines (functionText s.label s).toList fun ss ↦ ∃ stmt, ss = [stmt] ∧ IsDefinition s stmt := by
  refine (define_written (isName_of_isFunctionName h.label) (rule_written 1 h.rule)).mono ?_
  rintro _ ⟨line, body, rfl, hbody⟩
  exact ⟨_, rfl, line, body, rfl, hbody⟩

/-- One line for each slot. -/
theorem slots_written {f : Slot → String} {p : Slot → Stmt → Prop} {slots : List Slot}
    (h : ∀ s ∈ slots, WrittenLines (f s).toList fun ss ↦ ∃ stmt, ss = [stmt] ∧ p s stmt) :
    WrittenLines (String.join (slots.map f)).toList (List.Forall₂ p slots) := by
  induction slots with
  | nil =>
    refine WrittenLines.nil.mono ?_
    rintro _ rfl
    exact .nil
  | cons s slots ih =>
    rw [List.forall_mem_cons] at h
    rw [List.map_cons, String.join_cons, String.toList_append]
    refine (h.1.append (ih h.2)).mono ?_
    rintro _ ⟨_, stmts, rfl, ⟨stmt, rfl, hp⟩, hstmts⟩
    exact .cons hp hstmts

/-- The line that ticks the counter. -/
theorem tick_written : WrittenLines (lineText 1 "idx = downbeat_count.tick()").toList fun ss ↦
    ∃ s, ss = [s] ∧ ∃ line,
      s = .assign line "idx" (.method (.var "downbeat_count") "tick" []) := by
  have htick : Spells levels
      ([Tok.ident "downbeat_count"] ++ .dot :: .ident "tick" :: .openParen :: [Tok.closeParen])
      (.method (.var "downbeat_count") "tick" []) :=
    (SpellsUnary.suffixed (.call (.primary (.var (by decide) (by decide))) .none)).spells _
  exact line_written (fun rest ↦ .of_lexemes (n := 9) rfl)
    (simpleReads_assign (by decide) htick).statement (by simp [Tok.isNewline]) 1

/-- The line that sleeps. -/
theorem sleep_written : WrittenLines (lineText 1 "sleep get[:downbeat_time]").toList fun ss ↦
    ∃ s, ss = [s] ∧ ∃ line,
      s = .command line "sleep" [.index (.var "get") (.symbol "downbeat_time")] [] := by
  have hkey : Spells levels [.symbol "downbeat_time"] (.symbol "downbeat_time") :=
    (SpellsPrimary.literal rfl).unary.spells _
  have hbeats : Spells levels
      ([Tok.ident "get"] ++ .openBracket :: ([Tok.symbol "downbeat_time"] ++ [Tok.closeBracket]))
      (.index (.var "get") (.symbol "downbeat_time")) :=
    (SpellsUnary.suffixed (.index (.primary (.var (by decide) (by decide))) hkey)).spells _
  exact line_written (fun rest ↦ .of_lexemes (n := 6) rfl)
    (simpleReads_command (by decide) (.argument hbeats) rfl).statement (by simp [Tok.isNewline]) 1

/-- The line that opens a live loop. -/
theorem lexes_liveLoop {name : String} (hname : isName name = true) (rest : List Char) :
    Lexes ("live_loop :" ++ name ++ " do").toList
      [.ident "live_loop", .symbol name, .ident "do"] ('\n' :: rest) := by
  have hloop (more) : Lexes "live_loop ".toList [.ident "live_loop"] more := .of_lexemes (n := 2) rfl
  have hopen : Lexes " do".toList [.ident "do"] ('\n' :: rest) := .of_lexemes (n := 2) rfl
  have hsymbol := lexes_symbol hname (show endsName (" do".toList ++ '\n' :: rest) = true from rfl)
  rw [String.toList_append, String.toList_append, List.append_assoc]
  exact (hloop _).append (hsymbol.append hopen)

/-- **A live loop** over slots. -/
theorem loop_written (name : String) (hname : isName name = true) (slots : List Slot)
    (h : ∀ s ∈ slots, s.IsWritable) :
    WrittenLines (loopText name (slots.map fun s ↦ (s, s.label))).toList
      fun ss ↦ ∃ stmt, ss = [stmt] ∧ IsLoop name slots stmt := by
  have hsamples := slots_written fun s hs ↦ sampleLine_written (h s hs)
  obtain ⟨bs, hlines, hreads, hbslexes⟩ := (tick_written.append hsamples).append sleep_written
  refine ⟨[Tok.ident "live_loop", .symbol name, .ident "do"] ++ [Tok.newline] ++ bs ++
    [Tok.ident "end", .newline], ?_, ?_, ?_⟩
  · refine ((lines_single (List.cons_ne_nil _ _) ?_).append hlines).append
      (lines_single (List.cons_ne_nil (Tok.ident "end") []) ?_)
    · simp [Tok.isNewline]
    · exact unbroken_cons.mpr ⟨rfl, unbroken_nil⟩
  · have hloop := (statementReads_liveLoop name hreads).line
    simp only [List.cons_append, List.append_assoc, List.nil_append] at hloop ⊢
    refine hloop.mono ?_
    rintro _ ⟨_, rfl, line, _, rfl, _, _, rfl, ⟨_, samples, rfl, ⟨_, rfl, first, rfl⟩, hsamples⟩, _, rfl,
      last, rfl⟩
    exact ⟨_, rfl, line, first, last, samples, rfl, hsamples⟩
  · intro rest
    rw [loopText, List.map_map]
    have hwhole := (lexes_line (lexes_liveLoop hname) 0 _).append
      ((hbslexes _).append (lexes_line (lexes_word "end" rfl) 0 rest))
    simp only [String.toList_append, List.append_assoc] at hwhole ⊢
    exact hwhole

/-! ### Settings -/

/-- The line that names the folder of the samples. -/
theorem samplesDir_written (dir : String) :
    WrittenLines (lineText 0 ("samps = '" ++ quoteText dir ++ "'")).toList fun ss ↦
      ∃ s, ss = [s] ∧ ∃ line, s = .assign line "samps" (.str dir) := by
  have hassign (rest) : Lexes "samps = ".toList [.ident "samps", .sign .assign] rest :=
    .of_lexemes (n := 4) rfl
  have hquoted (rest) : Lexes ('\'' :: (escaped dir.toList ++ ['\''])) [.str dir] rest := by
    have h := lexes_quoted dir.toList rest
    rwa [String.ofList_toList] at h
  have htext : ("samps = '" ++ quoteText dir ++ "'").toList =
      "samps = ".toList ++ '\'' :: (escaped dir.toList ++ ['\'']) := by
    have hquote : (quoteText dir).toList = escaped dir.toList := String.toList_ofList
    rw [String.toList_append, String.toList_append, hquote]
    rfl
  have hvalue : Spells levels [.str dir] (.str dir) := (SpellsPrimary.literal rfl).unary.spells _
  refine line_written (fun rest ↦ ?_) (simpleReads_assign (by decide) hvalue).statement
    (by simp [Tok.isNewline]) 0
  rw [htext]
  exact (hassign _).append (hquoted _)

/-- The line that sets the tempo. -/
theorem tempo_written {text : String} {e : Expr}
    (h : Written text.toList fun toks ↦ Spells levels toks e ∧ toks.head?.any startsArgument = true) :
    WrittenLines (lineText 0 ("use_bpm " ++ text)).toList fun ss ↦
      ∃ s, ss = [s] ∧ ∃ line, s = .command line "use_bpm" [e] [] := by
  have hword (rest) : Lexes "use_bpm ".toList [.ident "use_bpm"] rest := .of_lexemes (n := 2) rfl
  have hline : Written ("use_bpm " ++ text).toList fun toks ↦
      StatementReads toks (fun s ↦ ∃ line, s = .command line "use_bpm" [e] []) ∧
        Unbroken toks := by
    rw [String.toList_append]
    refine (h.after hword).mono ?_
    rintro _ ⟨toks, rfl, hspells, hfirst⟩
    exact ⟨(simpleReads_command (by decide) (.argument hspells) hfirst).statement,
      unbroken_cons.mpr ⟨rfl, hspells.unbroken⟩⟩
  exact hline.line 0

theorem bpm_written {v : Float32} (h : ReadsBack v)
    (hpositive : (NumberLayout.plain.single v).toList.head? ≠ some '-') :
    WrittenLines (lineText 0 ("use_bpm " ++ NumberLayout.plain.single v)).toList fun ss ↦
      ∃ s, ss = [s] ∧ ∃ line e, s = .command line "use_bpm" [e] [] ∧ Worth v e := by
  obtain ⟨e, hworth, hwritten⟩ := positive_written h hpositive
  refine (tempo_written hwritten).mono ?_
  rintro _ ⟨_, rfl, line, rfl⟩
  exact ⟨_, rfl, line, e, rfl, hworth⟩

theorem stepCount_written {n : Nat} (hn : n < 2 ^ 32) :
    WrittenLines (lineText 0 ("downbeat_count = range(0, " ++ toString n ++ ", 1)")).toList fun ss ↦
      ∃ s, ss = [s] ∧ ∃ line, s = .assign line "downbeat_count"
        (.call "range" [.int 0, .int (Int64.ofNat n), .int 1]) := by
  have hliteral (k : Int64) : Spells levels [.int k] (.int k) :=
    (SpellsPrimary.literal rfl).unary.spells _
  have hrange : Spells levels (.ident "range" :: .openParen ::
      ([Tok.int 0] ++ .comma ::
        ([Tok.int (Int64.ofNat n)] ++ .comma :: ([Tok.int 1] ++ [Tok.closeParen]))))
      (.call "range" [.int 0, .int (Int64.ofNat n), .int 1]) :=
    (SpellsPrimary.call (by decide) (by decide)
      (.some (.more (hliteral 0) (.more (hliteral _) (.last (hliteral 1)))))).unary.spells _
  refine line_written (fun rest ↦ ?_) (simpleReads_assign (by decide) hrange).statement
    (by simp [Tok.isNewline]) 0
  -- the text falls apart at its numbers; what is between them is the same for all counts
  have hname (more) : Lexes "downbeat_count = range(".toList
      [.ident "downbeat_count", .sign .assign, .ident "range", .openParen] more :=
    .of_lexemes (n := 6) rfl
  have hzero (more) : Lexes (['0'] ++ ", ".toList) [.int 0, .comma] more :=
    (lexes_number (isNumber_toDigits (n := 0) rfl) rfl).append (lexes_comma more)
  have hnumber : Lexes (Nat.toDigits 10 n) [.int (Int64.ofNat n)] (", 1)".toList ++ '\n' :: rest) :=
    lexes_number (isNumber_toDigits (toInt_ofNat_of_lt hn)) rfl
  have hone : Lexes (['1'] ++ [')']) [.int 1, .closeParen] ('\n' :: rest) :=
    (lexes_number (isNumber_toDigits (n := 1) rfl) rfl).append (.of_lexemes (n := 1) rfl)
  have hbefore : "downbeat_count = range(0, ".toList =
      "downbeat_count = range(".toList ++ (['0'] ++ ", ".toList) := rfl
  have hafter : ", 1)".toList = ", ".toList ++ (['1'] ++ [')']) := rfl
  rw [String.toList_append, String.toList_append, Nat.toString_eq_repr, Nat.toList_repr,
    List.append_assoc, hbefore, hafter]
  exact ((hname _).append (hzero _)).append (hnumber.append ((lexes_comma _).append hone))

/-- The line that sets how long a step is. -/
theorem stepTime_written {text : String} {e : Expr} (h : Written text.toList (SpellsUnary · e)) :
    WrittenLines (lineText 0 ("set :downbeat_time, " ++ text)).toList fun ss ↦
      ∃ s, ss = [s] ∧ ∃ line, s = .command line "set" [.symbol "downbeat_time", e] [] := by
  have hword (rest) : Lexes "set :downbeat_time, ".toList
      [.ident "set", .symbol "downbeat_time", .comma] rest := .of_lexemes (n := 5) rfl
  have hkey : Spells levels [.symbol "downbeat_time"] (.symbol "downbeat_time") :=
    (SpellsPrimary.literal rfl).unary.spells _
  have hline : Written ("set :downbeat_time, " ++ text).toList fun toks ↦
      StatementReads toks (fun s ↦ ∃ line,
        s = .command line "set" [.symbol "downbeat_time", e] []) ∧ Unbroken toks := by
    rw [String.toList_append]
    refine (h.after hword).mono ?_
    rintro _ ⟨toks, rfl, hspells⟩
    have hparts : SpellsParts false ([Tok.symbol "downbeat_time"] ++ .comma :: toks)
        [.symbol "downbeat_time", e] [] := .moreArguments hkey (.argument (hspells.spells _))
    exact ⟨(simpleReads_command (by decide) hparts rfl).statement,
      unbroken_cons.mpr ⟨rfl, hparts.unbroken⟩⟩
  exact hline.line 0

theorem beats_written {v : Float32} (h : ReadsBack v) :
    WrittenLines (lineText 0 ("set :downbeat_time, " ++ NumberLayout.plain.single v)).toList fun ss ↦
      ∃ s, ss = [s] ∧ ∃ line e,
        s = .command line "set" [.symbol "downbeat_time", e] [] ∧ Worth v e := by
  obtain ⟨e, hworth, hwritten⟩ := single_written h
  refine (stepTime_written hwritten).mono ?_
  rintro _ ⟨_, rfl, line, rfl⟩
  exact ⟨_, rfl, line, e, rfl, hworth⟩

/-- The settings of a track. -/
def settingsText (t : Track) : String :=
  lineText 0 ("samps = '" ++ quoteText t.samplesDir ++ "'")
    ++ lineText 0 ("use_bpm " ++ NumberLayout.plain.single t.bpm)
    ++ lineText 0 ("downbeat_count = range(0, " ++ toString t.stepCount.toNat ++ ", 1)")
    ++ lineText 0 ("set :downbeat_time, " ++ NumberLayout.plain.single t.beatsPerStep)

/-- The statements are the settings of the track. -/
def IsSettings (t : Track) (stmts : List Stmt) : Prop :=
  ∃ l₁ l₂ l₃ l₄ bpm beats,
    stmts = [.assign l₁ "samps" (.str t.samplesDir), .command l₂ "use_bpm" [bpm] [],
      .assign l₃ "downbeat_count"
        (.call "range" [.int 0, .int (Int64.ofNat t.stepCount.toNat), .int 1]),
      .command l₄ "set" [.symbol "downbeat_time", beats] []] ∧
    Worth t.bpm bpm ∧ Worth t.beatsPerStep beats

theorem settings_written {t : Track} (hbpm : ReadsBack t.bpm)
    (hpositive : (NumberLayout.plain.single t.bpm).toList.head? ≠ some '-')
    (hbeats : ReadsBack t.beatsPerStep) : WrittenLines (settingsText t).toList (IsSettings t) := by
  have hsettings := (((samplesDir_written t.samplesDir).append (bpm_written hbpm hpositive)).append
    (stepCount_written t.stepCount.toNat_lt)).append (beats_written hbeats)
  rw [settingsText, String.toList_append, String.toList_append, String.toList_append]
  refine hsettings.mono ?_
  rintro _ ⟨_, _, rfl, ⟨_, _, rfl, ⟨_, _, rfl, ⟨_, rfl, l₁, rfl⟩, _, rfl, l₂, bpm, rfl, hbpm⟩,
    _, rfl, l₃, rfl⟩, _, rfl, l₄, beats, rfl, hbeats⟩
  exact ⟨l₁, l₂, l₃, l₄, bpm, beats, rfl, hbpm, hbeats⟩

/-! ### The whole script -/

/-- Labels that differ are the function names. -/
theorem functionNamesFrom_eq {taken : List String} {position : Nat} {slots : List Slot}
    (hlabel : ∀ s ∈ slots, isFunctionName s.label = true) (hdistinct : (slots.map (·.label)).Nodup)
    (htaken : ∀ s ∈ slots, s.label ∉ taken) :
    functionNamesFrom taken position slots = slots.map (·.label) := by
  induction slots generalizing taken position with
  | nil => rfl
  | cons s slots ih =>
    rw [List.forall_mem_cons] at hlabel htaken
    rw [List.map_cons, List.nodup_cons] at hdistinct
    have hname : functionName taken position s = s.label := by
      have hfree : taken.contains s.label = false := by simpa using htaken.1
      rw [functionName, if_pos hlabel.1, hfree]
      rfl
    have hrest : ∀ s' ∈ slots, s'.label ∉ s.label :: taken := by
      intro s' hs' hmem
      rcases List.mem_cons.mp hmem with heq | hmem
      · exact hdistinct.1 (heq ▸ List.mem_map_of_mem hs')
      · exact htaken.2 s' hs' hmem
    rw [functionNamesFrom, hname, List.map_cons, ih hlabel.2 hdistinct.2 hrest]

theorem zip_map_self {α β : Type} {f : α → β} (xs : List α) :
    xs.zip (xs.map f) = xs.map fun x ↦ (x, f x) := by
  induction xs with
  | nil => rfl
  | cons x xs ih => rw [List.map_cons, List.zip_cons_cons, ih, List.map_cons]

theorem zip_functionNames {t : Track} (hlabel : ∀ s ∈ t.slots, isFunctionName s.label = true)
    (hdistinct : (t.slots.map (·.label)).Nodup) :
    t.slots.zip (functionNames t) = t.slots.map fun s ↦ (s, s.label) := by
  have hnames : functionNames t = t.slots.map (·.label) :=
    functionNamesFrom_eq hlabel hdistinct fun _ _ ↦ List.not_mem_nil
  rw [hnames]
  exact zip_map_self t.slots

/-- The script of a track whose labels are different function names. -/
theorem render_eq {t : Track} (hlabel : ∀ s ∈ t.slots, isFunctionName s.label = true)
    (hdistinct : (t.slots.map (·.label)).Nodup) :
    render t = settingsText t ++ String.join (t.slots.map fun s ↦ functionText s.label s)
      ++ loopText "extracted_samples"
        ((t.slots.filter (·.source.isFolder)).map fun s ↦ (s, s.label))
      ++ loopText "sonic_pi_samples"
        ((t.slots.filter (!·.source.isFolder)).map fun s ↦ (s, s.label)) := by
  rw [render, scriptText, zip_functionNames hlabel hdistinct, List.map_map, List.filter_map, List.filter_map]
  rfl

/-- Lines are parsed as their statements. -/
theorem parse_of_writtenLines {text : String} {q : List Stmt → Prop}
    (h : WrittenLines text.toList q) : ∃ stmts, parse text = .ok stmts ∧ q stmts := by
  obtain ⟨toks, hlines, hreads, hlexes⟩ := h
  obtain ⟨ts, htokens, htoks⟩ := tokenize_of_lexes (hlexes []) hlines
  obtain ⟨stmts, hstmts, hblock⟩ := hreads.whole htoks
  refine ⟨stmts, ?_, hstmts⟩
  rw [parse, htokens]
  show (parseTokens ts).mapError ReadError.grammar = .ok stmts
  rw [hblock]
  rfl

/-- **The script of a track** is read as its statements. -/
theorem parse_render {t : Track} (h : t.IsWritable)
    (hpositive : (NumberLayout.plain.single t.bpm).toList.head? ≠ some '-') :
    ∃ stmts, parse (render t) = .ok stmts ∧ IsScript t stmts := by
  have hdefinitions := slots_written fun s hs ↦ definition_written (h.slots s hs)
  have hfolder : WrittenLines _ _ := loop_written "extracted_samples" rfl
    (t.slots.filter (·.source.isFolder)) fun s hs ↦ h.slots s (List.mem_of_mem_filter hs)
  have hbundled : WrittenLines _ _ := loop_written "sonic_pi_samples" rfl
    (t.slots.filter (!·.source.isFolder)) fun s hs ↦ h.slots s (List.mem_of_mem_filter hs)
  have hscript := (((settings_written h.bpm hpositive h.beatsPerStep).append hdefinitions).append
    hfolder).append hbundled
  rw [← String.toList_append, ← String.toList_append, ← String.toList_append,
    ← render_eq (fun s hs ↦ (h.slots s hs).label) h.distinct] at hscript
  obtain ⟨stmts, hparse, hstmts⟩ := parse_of_writtenLines hscript
  refine ⟨stmts, hparse, ?_⟩
  obtain ⟨_, _, rfl, ⟨_, _, rfl, ⟨_, _, rfl, ⟨l₁, l₂, l₃, l₄, bpm, beats, rfl, hbpm, hbeats⟩, hdefs⟩,
    folder, rfl, hfolder⟩, bundled, rfl, hbundled⟩ := hstmts
  refine ⟨l₁, l₂, l₃, l₄, bpm, beats, _, folder, bundled, ?_, hbpm, hbeats, hdefs, hfolder, hbundled⟩
  simp only [List.append_assoc, List.cons_append, List.nil_append]

end Script

end StepSequencer
