import StepSequencer.Proofs.Script.FunctionNames
import StepSequencer.Proofs.Script.LegibleScript
import StepSequencer.Proofs.Track.Validity

/-!
# Which scripts have tokens

The script of a track has tokens exactly if words hold its whole numbers (`Track.FitsWords`): no number
of a rule is the least word, which is written as the negation of a number that no word holds, and no
tempo, step length or setting of a preset is beyond it, for a 32-bit float without a fraction is
written as its digits alone. Names, counts and the numbers of slots never stand in the way.

`TokensIff` and `LinesIff` say of a piece of a script when it has tokens, and that it is barred from
reading otherwise. Pieces are put together in writing order: the first that is barred bars the whole,
since all before it are read and it is never reached past.
-/

namespace StepSequencer

/-- No setting is a 32-bit float beyond the least word. -/
def Preset.FitsWords (p : Preset) : Prop :=
  ∀ key ∈ PresetKey.all, (Binary.ofSingle (p.get key)).FitsWord

namespace Script

open JsonReader (IsDigits isDigits_toDigits)

/-! ### Barred texts -/

/-- The text has no tokens before `rest`, on whatever line it starts. -/
def Illegible (text rest : List Char) : Prop :=
  ∀ line, ∃ e, tokensFrom line (text ++ rest) = .error e

/-- The text has no tokens before anything with which neither a name nor a number goes on. -/
def Barred (text : List Char) : Prop := ∀ rest, ends rest = true → Illegible text rest

theorem Illegible.append {a b rest : List Char} (h : Illegible a (b ++ rest)) :
    Illegible (a ++ b) rest := by
  intro line
  rw [List.append_assoc]
  exact h line

theorem Lexes.illegible {a b rest : List Char} {toks : List Tok} (ha : Lexes a toks (b ++ rest))
    (hb : Illegible b rest) : Illegible (a ++ b) rest := by
  intro line
  obtain ⟨ts, -, htokens⟩ := ha line
  obtain ⟨e, he⟩ := hb (line + a.count '\n')
  refine ⟨e, ?_⟩
  rw [List.append_assoc, htokens, he]
  rfl

/-- A whole number that no word holds. -/
theorem barred_whole {digits : List Char} (hdigits : IsDigits digits)
    (h : ¬Word.Holds (readDigits digits)) : Barred digits := by
  intro rest hrest line
  rcases digits with - | ⟨c, cs⟩
  · exact absurd rfl hdigits.nonempty
  have hall := hdigits.digits
  rw [List.forall_mem_cons] at hall
  have hends := endsNumber_of_ends hrest
  have hcs : ∀ d ∈ cs, continuesNumber d = true := fun d hd ↦ continuesNumber_of_isDigit (hall.2 d hd)
  obtain ⟨htake, hdrop⟩ := takeWhile_append_of_head? hcs (stops_of_endsNumber hends)
  have hnone : Word.ofInt? (readDigits (c :: cs)) = none := if_neg h
  have hlexeme : lexeme c (cs ++ rest) = (.numberTooLarge, (c :: cs).length - 1) := by
    rw [lexeme_of_isDigit hall.1, numberLexeme, htake, hdrop,
      List.filter_eq_self.mpr hdigits.digits, hnone]
    split
    · exact absurd (show false = true from hends) Bool.false_ne_true
    · rfl
  rw [List.cons_append, tokensFrom, hlexeme]
  exact ⟨_, rfl⟩

/-! ### Pieces of a line -/

/-- The text has tokens exactly if the condition holds. -/
structure TokensIff (text : List Char) (p : Prop) : Prop where
  written : p → Written text fun _ ↦ True
  barred : ¬p → Barred text

/-- The text has no tokens, whatever comes after it. -/
def BarredLines (text : List Char) : Prop := ∀ rest, Illegible text rest

/-- The lines have tokens exactly if the condition holds. -/
structure LinesIff (text : List Char) (p : Prop) : Prop where
  lexes : p → ∃ toks, ∀ rest, Lexes text toks rest
  barred : ¬p → BarredLines text

namespace TokensIff

variable {a b : List Char} {p q : Prop} {toks : List Tok}

theorem congr (h : TokensIff a p) (hpq : p ↔ q) : TokensIff a q := propext hpq ▸ h

/-- A text that always has tokens. -/
theorem of_lexes (h : ∀ rest, ends rest = true → Lexes a toks rest) : TokensIff a True :=
  ⟨fun _ ↦ ⟨toks, trivial, h⟩, fun hfalse ↦ absurd trivial hfalse⟩

theorem of_written {r : List Tok → Prop} (h : Written a r) : TokensIff a True := by
  obtain ⟨toks, -, hlexes⟩ := h
  exact of_lexes hlexes

/-- Two pieces, the second of which neither goes on with a name nor with a number. -/
theorem append (ha : TokensIff a p) (hb : TokensIff b q)
    (hends : ∀ rest, ends rest = true → ends (b ++ rest) = true) : TokensIff (a ++ b) (p ∧ q) where
  written h := by
    obtain ⟨as, -, hlexes⟩ := ha.written h.1
    obtain ⟨bs, -, hlexes'⟩ := hb.written h.2
    exact ⟨as ++ bs, trivial, fun rest hrest ↦ (hlexes _ (hends rest hrest)).append (hlexes' rest hrest)⟩
  barred h rest hrest := by
    by_cases hp : p
    · obtain ⟨as, -, hlexes⟩ := ha.written hp
      exact (hlexes _ (hends rest hrest)).illegible (hb.barred (fun hq ↦ h ⟨hp, hq⟩) rest hrest)
    · exact (ha.barred hp _ (hends rest hrest)).append

/-- A fixed text before a piece. -/
theorem after (hbefore : ∀ rest, Lexes b toks rest) (h : TokensIff a p) : TokensIff (b ++ a) p where
  written hp := ((h.written hp).after hbefore).mono fun _ _ ↦ trivial
  barred hp rest hrest := (hbefore _).illegible (h.barred hp rest hrest)

/-- A fixed text after a piece. -/
theorem before (h : TokensIff a p) (hends : ∀ rest, ends (b ++ rest) = true)
    (hafter : ∀ rest, Lexes b toks rest) : TokensIff (a ++ b) p where
  written hp := by
    obtain ⟨as, -, hlexes⟩ := h.written hp
    exact ⟨as ++ toks, trivial, fun rest _ ↦ (hlexes _ (hends rest)).append (hafter rest)⟩
  barred hp rest _ := (h.barred hp _ (hends rest)).append

theorem neg (h : TokensIff a p) : TokensIff ('-' :: a) p :=
  h.after (b := ['-']) fun _ ↦ .of_lexemes (n := 1) rfl

theorem paren (h : TokensIff a p) : TokensIff ('(' :: (a ++ [')'])) p :=
  (h.before (fun _ ↦ rfl) fun _ ↦ .of_lexemes (n := 1) rfl).after (b := ['('])
    fun _ ↦ .of_lexemes (n := 1) rfl

/-- An operator between its operands. -/
theorem operands (op : BinaryOp) (ha : TokensIff a p) (hb : TokensIff b q) :
    TokensIff (a ++ ' ' :: (op.symbol.toList ++ ' ' :: b)) (p ∧ q) := by
  have hsign := hb.after (lexes_sign op.sign)
  rw [BinaryOp.sign_text, List.cons_append, List.append_assoc] at hsign
  exact ha.append hsign fun _ _ ↦ rfl

/-- A line of any depth that ends in a piece. -/
theorem line {before text : String} (depth : Nat) (hbefore : ∀ rest, Lexes before.toList toks rest)
    (h : TokensIff text.toList p) : LinesIff (lineText depth (before ++ text)).toList p where
  lexes hp := by
    obtain ⟨ts, -, hlexes⟩ := h.written hp
    refine ⟨toks ++ ts ++ [Tok.newline], lexes_line (fun rest ↦ ?_) depth⟩
    rw [String.toList_append]
    exact (hbefore _).append (hlexes ('\n' :: rest) rfl)
  barred hp rest := by
    have hline : Illegible (before.toList ++ text.toList) ('\n' :: rest) :=
      (hbefore _).illegible (h.barred hp ('\n' :: rest) rfl)
    rw [lineText, String.toList_append, String.toList_append, String.toList_append,
      String.toList_ofList, List.append_assoc]
    exact (lexes_tabs depth _).illegible hline.append

end TokensIff

namespace LinesIff

variable {a b : List Char} {p q : Prop} {toks : List Tok}

theorem congr (h : LinesIff a p) (hpq : p ↔ q) : LinesIff a q := propext hpq ▸ h

/-- Lines that always have tokens. -/
theorem of_lexes (h : ∀ rest, Lexes a toks rest) : LinesIff a True :=
  ⟨fun _ ↦ ⟨toks, h⟩, fun hfalse ↦ absurd trivial hfalse⟩

theorem append (ha : LinesIff a p) (hb : LinesIff b q) : LinesIff (a ++ b) (p ∧ q) where
  lexes h := by
    obtain ⟨as, hlexes⟩ := ha.lexes h.1
    obtain ⟨bs, hlexes'⟩ := hb.lexes h.2
    exact ⟨as ++ bs, fun rest ↦ (hlexes _).append (hlexes' rest)⟩
  barred h rest := by
    by_cases hp : p
    · obtain ⟨as, hlexes⟩ := ha.lexes hp
      exact (hlexes _).illegible (hb.barred (fun hq ↦ h ⟨hp, hq⟩) rest)
    · exact (ha.barred hp _).append

theorem of_written {r : List Stmt → Prop} (h : WrittenLines a r) : LinesIff a True := by
  obtain ⟨toks, -, -, hlexes⟩ := h
  exact of_lexes hlexes

/-- Lines that always have tokens, before others. -/
theorem after (h : LinesIff a p) (hbefore : LinesIff b True) : LinesIff (b ++ a) p :=
  (hbefore.append h).congr (and_iff_right trivial)

/-- Lines that always have tokens, after others. -/
theorem before (h : LinesIff a p) (hafter : LinesIff b True) : LinesIff (a ++ b) p :=
  (h.append hafter).congr (and_iff_left trivial)

/-- A line that is a name. -/
theorem word (name : String) (depth : Nat) (h : isName name = true) :
    LinesIff (lineText depth name).toList True :=
  of_lexes (lexes_line (lexes_word name h) depth)

/-- Lines for each element of a list. -/
theorem join {α : Type} {f : α → String} {p : α → Prop} {xs : List α}
    (h : ∀ x ∈ xs, LinesIff (f x).toList (p x)) :
    LinesIff (String.join (xs.map f)).toList (∀ x ∈ xs, p x) := by
  induction xs with
  | nil =>
    have hnone (rest) : Lexes "".toList [] rest := .nil
    exact (of_lexes hnone).congr (iff_of_true trivial (List.forall_mem_nil p))
  | cons x xs ih =>
    rw [List.forall_mem_cons] at h
    rw [List.map_cons, String.join_cons, String.toList_append]
    exact (h.1.append (ih h.2)).congr List.forall_mem_cons.symm

/-- **Lines** are tokenized exactly if the condition holds. -/
theorem tokenize {text : String} (h : LinesIff text.toList p) :
    (∃ ts, Script.tokenize text = .ok ts) ↔ p := by
  constructor
  · rintro ⟨ts, hts⟩
    by_contra hp
    obtain ⟨e, he⟩ := h.barred hp [] 1
    rw [List.append_nil] at he
    rw [Script.tokenize, he] at hts
    cases hts
  · intro hp
    obtain ⟨toks, hlexes⟩ := h.lexes hp
    obtain ⟨ts, -, htokens⟩ := hlexes [] 1
    rw [List.append_nil] at htokens
    refine ⟨joinBreaks true (ts ++ [⟨1 + text.toList.count '\n', .newline⟩]), ?_⟩
    rw [Script.tokenize, htokens, tokensFrom]
    show Except.ok (joinBreaks true (ts ++ [] ++ _)) = _
    rw [List.append_nil]

end LinesIff

/-! ### Numbers -/

theorem digits_tokensIff {digits : List Char} (h : IsDigits digits) :
    TokensIff digits (Word.Holds (readDigits digits)) where
  written hholds := by
    obtain ⟨w, -, hw⟩ := Word.ofInt?_of_holds hholds
    exact (isNumber_written (isNumber_whole h.nonempty h.digits hw)).mono fun _ _ ↦ trivial
  barred := barred_whole h

theorem toDigits_tokensIff (n : Nat) : TokensIff (Nat.toDigits 10 n) (n < 2 ^ 63) := by
  refine (digits_tokensIff (isDigits_toDigits n)).congr ?_
  rw [readDigits_toDigits, Word.Holds]
  omega

theorem natAbs_lt_iff (n : Int64) : n.toInt.natAbs < 2 ^ 63 ↔ n ≠ Int64.minValue := by
  have hmin : Int64.minValue.toInt = -2 ^ 63 := rfl
  have hlow := n.le_toInt
  have hhigh := n.toInt_lt
  rw [ne_eq, ← Int64.toInt_inj, hmin]
  omega

/-- Only the least word has a magnitude that no word holds. -/
theorem whole_tokensIff (n : Int64) : TokensIff (toString n.toInt).toList (n ≠ Int64.minValue) := by
  rw [← natAbs_lt_iff]
  rcases Int.lt_or_le n.toInt 0 with hneg | hnonneg
  · rw [toString_of_neg hneg]
    exact (toDigits_tokensIff _).neg
  · obtain ⟨m, hm⟩ := Int.eq_ofNat_of_zero_le hnonneg
    rw [hm, toString_ofNat]
    exact toDigits_tokensIff m

theorem shifted_tokensIff (offset : Int64) :
    TokensIff (shiftedText offset).toList (offset ≠ Int64.minValue) := by
  have hclose (rest) : Lexes [')'] [.closeParen] rest := .of_lexemes (n := 1) rfl
  rw [shiftedText]
  split
  · next hzero => exact (TokensIff.of_written .step).congr (iff_of_true trivial (hzero ▸ by decide))
  split
  · have hopen (rest) : Lexes "(x + ".toList [.openParen, .ident "x", .sign .plus] rest :=
      .of_lexemes (n := 5) rfl
    rw [String.toList_append, String.toList_append]
    exact ((whole_tokensIff offset).after hopen).before (fun _ ↦ rfl) hclose
  · have hopen (rest) : Lexes "(x - ".toList [.openParen, .ident "x", .sign .minus] rest :=
      .of_lexemes (n := 5) rfl
    rw [String.toList_append, String.toList_append, Nat.toString_eq_repr, Nat.toList_repr,
      ← natAbs_lt_iff]
    exact ((toDigits_tokensIff _).after hopen).before (fun _ ↦ rfl) hclose

theorem name_tokensIff (name : String) (h : isName name = true) : TokensIff name.toList True :=
  .of_lexes fun _ hrest ↦ lexes_name h (endsName_of_ends hrest)

theorem positional_tokensIff (d : Decimal) :
    TokensIff (NumberLayout.positional false d).toList d.FitsWord := by
  by_cases hexponent : 0 ≤ d.exponent
  · have hwhole := (NumberLayout.isWhole_positional hexponent).toIsDigits
    exact (digits_tokensIff hwhole).congr (holds_positional_iff hexponent)
  · obtain ⟨whole, fraction, hwhole, hfraction, htext⟩ := NumberLayout.exists_positional d
    have hnumber := isNumber_point hwhole.toIsDigits hfraction
    rw [← NumberLayout.positional_of_neg hexponent, htext]
    exact (TokensIff.of_written (isNumber_written hnumber)).congr
      (iff_of_true trivial fun h ↦ absurd h hexponent)

/-- **The text of a 32-bit float** without a fraction is its digits alone. -/
theorem single_tokensIff (v : Float32) :
    TokensIff (NumberLayout.plain.single v).toList (Binary.ofSingle v).FitsWord := by
  have hinf := name_tokensIff "inf" rfl
  rw [NumberLayout.single]
  rcases hv : Binary.ofSingle v with - | (- | -) | ⟨negative, mantissa, exponent⟩
  · exact name_tokensIff "NaN" rfl
  · exact hinf
  · exact hinf.neg
  · have hdigits := (positional_tokensIff _).congr (Decimal.fitsWord_shortest_iff hv)
    rw [NumberLayout.binary, NumberLayout.plain_decimal, String.toList_append]
    cases negative with
    | false => exact hdigits
    | true => exact hdigits.neg

/-! ### Expressions -/

/-- A number of a rule: a float has a point in any case. -/
theorem num_tokensIff (n : Num) :
    TokensIff (numberText n).toList (StepExpr.const n).AvoidsLeast := by
  rcases n with n | x
  · exact whole_tokensIff n
  · obtain ⟨t, -, hoperand⟩ := isOperand_float (x := x)
    exact .of_written hoperand.unary

theorem expr_tokensIff (e : StepExpr) : TokensIff (exprText e).toList e.AvoidsLeast := by
  induction e with
  | step => exact .of_written .step
  | const value => exact num_tokensIff value
  | neg operand ih =>
    rw [exprText, String.toList_append, String.toList_append]
    exact ih.neg.paren
  | binary op lhs rhs ihl ihr =>
    have hbase : TokensIff (baseText op lhs).toList lhs.AvoidsLeast := by
      rw [baseText]
      split
      · rw [String.toList_append, String.toList_append]
        exact ihl.paren
      · exact ihl
    rw [exprText_binary]
    exact (TokensIff.operands (.arith op) hbase ihr).paren

/-! ### Conditions -/

/-- A condition with one number, at its end. -/
theorem bound_tokensIff (before : String) (toks : List Tok) (bound : Int64)
    (hbefore : ∀ rest, Lexes before.toList toks rest) :
    TokensIff (before ++ toString bound.toInt).toList (bound ≠ Int64.minValue) := by
  rw [String.toList_append]
  exact (whole_tokensIff bound).after hbefore

theorem congruent_tokensIff (offset modulus : Int64) :
    TokensIff (conditionText (.congruent offset modulus)).toList
      (Condition.congruent offset modulus).AvoidsLeast := by
  have hzero : TokensIff [' ', '=', '=', ' ', '0'] True :=
    .of_lexes fun _ hrest ↦ (lexes_sign .eq _).append
      (lexes_number (isNumber_toDigits (n := 0) (w := 0) rfl) (endsNumber_of_ends hrest))
  have hwhole := ((TokensIff.operands (.arith .rem) (shifted_tokensIff offset)
    (whole_tokensIff modulus)).append hzero fun _ _ ↦ rfl).congr (and_iff_left trivial)
  rw [conditionText]
  simp only [String.toList_append, List.append_assoc, List.cons_append] at hwhole ⊢
  exact hwhole

theorem ends_rest (op : BinaryOp) (cs : List Condition) {rest : List Char} (h : ends rest = true) :
    ends ((restText (" " ++ op.symbol ++ " ") cs).toList ++ rest) = true := by
  cases cs with
  | nil => exact h
  | cons c cs =>
    rw [restText_cons]
    rfl

mutual

theorem condition_tokensIff : (c : Condition) → TokensIff (conditionText c).toList c.AvoidsLeast
  | .const value => by
    cases value with
    | false => exact name_tokensIff "false" rfl
    | true => exact name_tokensIff "true" rfl
  | .congruent offset modulus => congruent_tokensIff offset modulus
  | .equals bound => by
    rw [conditionText]
    exact bound_tokensIff "x == " [.ident "x", .sign .eq] bound fun _ ↦ .of_lexemes (n := 4) rfl
  | .lessThan bound => by
    rw [conditionText]
    exact bound_tokensIff "x < " [.ident "x", .sign .lt] bound fun _ ↦ .of_lexemes (n := 4) rfl
  | .atMost bound => by
    rw [conditionText]
    exact bound_tokensIff "x <= " [.ident "x", .sign .le] bound fun _ ↦ .of_lexemes (n := 4) rfl
  | .greaterThan bound => by
    rw [conditionText]
    exact bound_tokensIff "x > " [.ident "x", .sign .gt] bound fun _ ↦ .of_lexemes (n := 4) rfl
  | .atLeast bound => by
    rw [conditionText]
    exact bound_tokensIff "x >= " [.ident "x", .sign .ge] bound fun _ ↦ .of_lexemes (n := 4) rfl
  | .compare op lhs rhs => by
    rw [conditionText_compare]
    exact .operands op.inScript (expr_tokensIff lhs) (expr_tokensIff rhs)
  | .any [] => by
    rw [conditionText]
    exact name_tokensIff "false" rfl
  | .any (c :: cs) => by
    rw [conditionText_any]
    exact ((condition_tokensIff c).append (rest_tokensIff .or cs) fun _ ↦ ends_rest .or cs).paren
  | .all [] => by
    rw [conditionText]
    exact name_tokensIff "true" rfl
  | .all (c :: cs) => by
    rw [conditionText_all]
    exact ((condition_tokensIff c).append (rest_tokensIff .and cs) fun _ ↦ ends_rest .and cs).paren
  | .not operand => by
    rw [conditionText_not]
    exact ((condition_tokensIff operand).before (fun _ ↦ rfl) fun _ ↦ .of_lexemes (n := 1) rfl).after
      (b := ['!', '(']) fun _ ↦ .of_lexemes (n := 2) rfl

/-- Members, each after a connective. -/
theorem rest_tokensIff (op : BinaryOp) : (cs : List Condition) →
    TokensIff (restText (" " ++ op.symbol ++ " ") cs).toList (Condition.EachAvoidsLeast cs)
  | [] => by
    rw [restText]
    exact .of_lexes fun _ _ ↦ .nil
  | c :: cs => by
    have hsign := (condition_tokensIff c).after (lexes_sign op.sign)
    rw [BinaryOp.sign_text, List.cons_append, List.append_assoc] at hsign
    rw [restText_cons]
    exact hsign.append (rest_tokensIff op cs) fun _ ↦ ends_rest op cs

end

/-! ### Rules -/

theorem outcome_tokensIff (outcome : Outcome) :
    TokensIff (outcomeText outcome).toList (Rule.answer outcome).AvoidsLeast := by
  cases outcome with
  | true => exact name_tokensIff "true" rfl
  | false => exact name_tokensIff "false" rfl
  | nil => exact name_tokensIff "nil" rfl
  | sentinel value => exact whole_tokensIff value

/-- **A rule** has tokens exactly if no number in it is the least word. -/
theorem rule_linesIff (depth : Nat) (r : Rule) : LinesIff (ruleText depth r).toList r.AvoidsLeast := by
  induction r generalizing depth with
  | answer outcome =>
    have hreturn (rest) : Lexes "return ".toList [.ident "return"] rest := .of_lexemes (n := 2) rfl
    exact (outcome_tokensIff outcome).line depth hreturn
  | test condition taken otherwise iht iho =>
    have hif (rest) : Lexes "if ".toList [.ident "if"] rest := .of_lexemes (n := 2) rfl
    have htest := ((((condition_tokensIff condition).line depth hif).append (iht (depth + 1))).before
      (.word "else" depth rfl)).append (iho (depth + 1))
    rw [ruleText, String.toList_append, String.toList_append, String.toList_append,
      String.toList_append]
    exact (htest.before (.word "end" depth rfl)).congr and_assoc
  | rebase shift rule ih =>
    have hassign (rest) : Lexes "x = ".toList [.ident "x", .sign .assign] rest :=
      .of_lexemes (n := 4) rfl
    have hshift : -shift ≠ Int64.minValue ↔ shift ≠ Int64.minValue :=
      ⟨fun h heq ↦ h (by rw [heq]; rfl), Word.neg_ne_minValue⟩
    rw [ruleText, String.toList_append]
    exact (((shifted_tokensIff (-shift)).congr hshift).line depth hassign).append (ih depth)

theorem function_linesIff {name : String} (hname : isName name = true) (s : Slot) :
    LinesIff (functionText name s).toList s.rule.AvoidsLeast := by
  rw [functionText, defineText, String.toList_append, String.toList_append]
  exact ((rule_linesIff 1 s.rule).after (.of_lexes (lexes_line (lexes_define hname) 0))).before
    (.word "end" 0 rfl)

/-! ### Sample lines -/

theorem option_tokensIff (p : Preset) (key : PresetKey) :
    TokensIff (key.name ++ ": " ++ NumberLayout.plain.single (p.get key)).toList
      (Binary.ofSingle (p.get key)).FitsWord := by
  have hlabel (rest) :
      Lexes (key.name.toList ++ [':'] ++ [' ']) ([Tok.label key.name] ++ []) rest :=
    (lexes_label (isName_presetKey key)).append (.of_lexemes (n := 1) rfl)
  have hwhole := (single_tokensIff (p.get key)).after hlabel
  rw [String.toList_append, String.toList_append]
  simp only [List.append_assoc] at hwhole ⊢
  exact hwhole

theorem options_tokensIff (p : Preset) (keys : List PresetKey) :
    TokensIff (", ".intercalate (keys.map fun key ↦
      key.name ++ ": " ++ NumberLayout.plain.single (p.get key))).toList
        (∀ key ∈ keys, (Binary.ofSingle (p.get key)).FitsWord) := by
  induction keys with
  | nil => exact (TokensIff.of_lexes fun _ _ ↦ .nil).congr (iff_of_true trivial (List.forall_mem_nil _))
  | cons key keys ih =>
    rcases keys with - | ⟨next, keys⟩
    · rw [List.map_singleton, String.intercalate_singleton, List.forall_mem_singleton]
      exact option_tokensIff p key
    · rw [List.map_cons, List.map_cons, String.intercalate_cons_cons, String.toList_append,
        String.toList_append, List.append_assoc, List.forall_mem_cons]
      exact (option_tokensIff p key).append (ih.after lexes_comma) fun _ _ ↦ rfl

/-- What a slot's sample line calls, and the sample it plays, are names. -/
structure IsNamed (s : Slot) (function : String) : Prop where
  sample : ∀ name, s.source = .bundled name → isName name = true
  function : isName function = true

theorem sampleLine_linesIff {s : Slot} {name : String} (h : IsNamed s name) :
    LinesIff (sampleLineText name s).toList s.preset.FitsWords := by
  obtain ⟨toks, hsample, -⟩ := sample_written h.sample
  have hguard (rest) : Lexes (" if ".toList ++ (name.toList ++ "(idx)".toList))
      ([Tok.ident "if"] ++ ([Tok.ident name] ++ [Tok.openParen, .ident "idx", .closeParen]))
      rest := by
    have hif (more) : Lexes " if ".toList [.ident "if"] more := .of_lexemes (n := 3) rfl
    exact (hif _).append ((lexes_name h.function rfl).append (.of_lexemes (n := 3) rfl))
  have hline : TokensIff (optionsText s.preset ++ (" if " ++ (name ++ "(idx)"))).toList
      s.preset.FitsWords := by
    rw [String.toList_append, String.toList_append, String.toList_append]
    exact (options_tokensIff s.preset PresetKey.all).before (fun _ ↦ rfl) hguard
  simp only [← String.toList_append] at hsample
  have hwhole := hline.line 1 hsample
  rw [sampleLineText]
  simp only [String.append_assoc] at hwhole ⊢
  exact hwhole

theorem loop_linesIff (name : String) (hname : isName name = true) {slots : List (Slot × String)}
    (h : ∀ x ∈ slots, IsNamed x.1 x.2) :
    LinesIff (loopText name slots).toList (∀ x ∈ slots, x.1.preset.FitsWords) := by
  have hsamples := LinesIff.join fun x hx ↦ sampleLine_linesIff (h x hx)
  have hbody := (hsamples.after (.of_written tick_written)).before (.of_written sleep_written)
  have hwhole := (hbody.after (.of_lexes (lexes_line (lexes_liveLoop hname) 0))).before
    (.word "end" 0 rfl)
  rw [loopText]
  simp only [String.toList_append, List.append_assoc] at hwhole ⊢
  exact hwhole

/-! ### The whole script -/

theorem settings_linesIff (t : Track) : LinesIff (settingsText t).toList
    ((Binary.ofSingle t.bpm).FitsWord ∧ (Binary.ofSingle t.beatsPerStep).FitsWord) := by
  have hbpm (rest) : Lexes "use_bpm ".toList [.ident "use_bpm"] rest := .of_lexemes (n := 2) rfl
  have hbeats (rest) : Lexes "set :downbeat_time, ".toList
      [.ident "set", .symbol "downbeat_time", .comma] rest := .of_lexemes (n := 5) rfl
  have htempo := ((single_tokensIff t.bpm).line 0 hbpm).after
    (.of_written (samplesDir_written t.samplesDir))
  rw [settingsText, String.toList_append, String.toList_append, String.toList_append]
  exact (htempo.before (.of_written (stepCount_written t.stepCount.toNat_lt))).append
    ((single_tokensIff t.beatsPerStep).line 0 hbeats)

/-- A property of all slots is one of all slots with their functions' names. -/
theorem forall_zip_functionNames (t : Track) {p : Slot → Prop} :
    (∀ x ∈ t.slots.zip (functionNames t), p x.1) ↔ ∀ s ∈ t.slots, p s := by
  have hlength : t.slots.length ≤ (functionNames t).length := (length_namesOf t.slots).ge
  rw [← List.forall_mem_map (P := p), List.map_fst_zip hlength]

/-- A property of the elements that are kept and of those that are not. -/
theorem forall_filter {α : Type} {xs : List α} (keeps : α → Bool) {p : α → Prop} :
    ((∀ x ∈ xs.filter keeps, p x) ∧ ∀ x ∈ xs.filter (!keeps ·), p x) ↔ ∀ x ∈ xs, p x := by
  simp only [List.mem_filter, and_imp]
  constructor
  · rintro ⟨hkept, hleft⟩ x hx
    cases hkeeps : keeps x with
    | true => exact hkept x hx hkeeps
    | false => exact hleft x hx (by rw [hkeeps]; rfl)
  · exact fun h ↦ ⟨fun x hx _ ↦ h x hx, fun x hx _ ↦ h x hx⟩

end Script

/-- The bundled samples have names that a script can spell. -/
def Track.HasSampleNames (t : Track) : Prop :=
  ∀ s ∈ t.slots, ∀ name, s.source = .bundled name → Script.isName name = true

/-- Words hold what the script of the track has in digits alone. -/
structure Track.FitsWords (t : Track) : Prop where
  singles : ∀ x ∈ t.singles, (Binary.ofSingle x).FitsWord
  rules : ∀ s ∈ t.slots, s.rule.AvoidsLeast

theorem Track.fitsWords_iff (t : Track) : t.FitsWords ↔
    ((Binary.ofSingle t.bpm).FitsWord ∧ (Binary.ofSingle t.beatsPerStep).FitsWord) ∧
      (∀ s ∈ t.slots, s.preset.FitsWords) ∧ ∀ s ∈ t.slots, s.rule.AvoidsLeast := by
  have hsingles : (∀ x ∈ t.singles, (Binary.ofSingle x).FitsWord) ↔
      (Binary.ofSingle t.bpm).FitsWord ∧ (Binary.ofSingle t.beatsPerStep).FitsWord ∧
        ∀ s ∈ t.slots, s.preset.FitsWords := by
    rw [singles, List.forall_mem_cons, List.forall_mem_cons, List.forall_mem_flatMap]
    simp only [List.forall_mem_map, Preset.FitsWords]
  rw [and_assoc]
  exact ⟨fun h ↦ (hsingles.mp h.singles).imp_right (·.imp_right fun hpresets ↦ ⟨hpresets, h.rules⟩),
    fun ⟨hbpm, hbeats, hpresets, hrules⟩ ↦ ⟨hsingles.mpr ⟨hbpm, hbeats, hpresets⟩, hrules⟩⟩

namespace Script

/-- **The script of a track** is barred exactly if a number in it is beyond the words. -/
theorem render_linesIff {t : Track} (hnames : t.HasSampleNames) :
    LinesIff (render t).toList t.FitsWords := by
  have hnamed : ∀ x ∈ t.slots.zip (functionNames t), IsNamed x.1 x.2 := by
    rintro ⟨s, name⟩ hx
    obtain ⟨hs, hname⟩ := List.of_mem_zip hx
    exact ⟨hnames s hs, isName_of_isFunctionName (isFunctionName_of_mem hname)⟩
  have hfunctions := LinesIff.join fun x hx ↦ function_linesIff (hnamed x hx).function x.1
  have hfolder := loop_linesIff "extracted_samples" rfl
    fun x hx ↦ hnamed x (List.mem_of_mem_filter (p := (·.1.source.isFolder)) hx)
  have hbundled := loop_linesIff "sonic_pi_samples" rfl
    fun x hx ↦ hnamed x (List.mem_of_mem_filter (p := (!·.1.source.isFolder)) hx)
  have hscript := (((settings_linesIff t).append hfunctions).append hfolder).append hbundled
  rw [← String.toList_append, ← String.toList_append, ← String.toList_append] at hscript
  refine LinesIff.congr hscript ?_
  rw [and_assoc, forall_filter (fun x : Slot × String ↦ x.1.source.isFolder),
    forall_zip_functionNames t (p := fun s ↦ s.rule.AvoidsLeast),
    forall_zip_functionNames t (p := fun s ↦ s.preset.FitsWords), t.fitsWords_iff, and_assoc,
    and_comm (a := ∀ s ∈ t.slots, s.rule.AvoidsLeast)]

/-- **The script of a track** has tokens exactly if words hold its whole numbers: no number of a rule
is the least word, and no other is a 32-bit float beyond it. -/
theorem tokenize_render_iff {t : Track} (hnames : t.HasSampleNames) :
    (∃ ts, tokenize (render t) = .ok ts) ↔ t.FitsWords :=
  (render_linesIff hnames).tokenize

/-- A track with a step of some length and a rule with a number. -/
def timedTrack (beats : Float32) (bound : Int64) : Track where
  name := "loop"
  samplesDir := "kit"
  bpm := 60
  stepCount := 4
  beatsPerStep := beats
  slots := [⟨0, .bundled "drum", "kick", .test (.equals bound) (.answer .true) (.answer .false),
    .standard⟩]

theorem hasSampleNames_timedTrack (beats : Float32) (bound : Int64) :
    (timedTrack beats bound).HasSampleNames := by
  refine List.forall_mem_singleton.mpr ?_
  rintro _ ⟨⟩
  rfl

/-- The greatest length and the least number that can be read. -/
theorem tokenize_render_greatest :
    (timedTrack 9223372036854775808 (-9223372036854775807)).HasSampleNames ∧
      ∃ ts, tokenize (render (timedTrack 9223372036854775808 (-9223372036854775807))) = .ok ts := by
  have hbound : (-9223372036854775807 : Int64) ≠ Int64.minValue := by decide
  have hnames := hasSampleNames_timedTrack 9223372036854775808 (-9223372036854775807)
  refine ⟨hnames, (tokenize_render_iff hnames).mpr ⟨?_, ?_⟩⟩
  · decide +kernel
  · exact List.forall_mem_singleton.mpr ⟨hbound, trivial, trivial⟩

/-- **Tracks whose scripts have no tokens**, though they can be played: one for a number of a rule,
one for the length of its steps. -/
theorem not_tokenize_render :
    ((timedTrack 1 Int64.minValue).validate = .ok () ∧ (timedTrack 1 Int64.minValue).HasSampleNames ∧
      ¬∃ ts, tokenize (render (timedTrack 1 Int64.minValue)) = .ok ts) ∧
    ((timedTrack 1e19 0).validate = .ok () ∧ (timedTrack 1e19 0).HasSampleNames ∧
      ¬∃ ts, tokenize (render (timedTrack 1e19 0)) = .ok ts) := by
  have hnames := hasSampleNames_timedTrack
  refine ⟨⟨by rfl, hnames 1 Int64.minValue, ?_⟩, by rfl, hnames 1e19 0, ?_⟩
  · rw [(render_linesIff (hnames 1 Int64.minValue)).tokenize]
    exact fun h ↦ (h.rules _ (List.mem_singleton_self _)).1 rfl
  · rw [(render_linesIff (hnames 1e19 0)).tokenize]
    intro h
    have hbeats := h.singles 1e19 (List.mem_cons_of_mem _ List.mem_cons_self)
    exact absurd hbeats (by decide +kernel)

end Script

end StepSequencer
