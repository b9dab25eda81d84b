import StepSequencer.Proofs.Number.Digits
import StepSequencer.Script.Lexer

/-!
# Lexing a text piece by piece

`Lexes cs toks rest` says that a text, read before `rest`, becomes the tokens `toks` and leaves
`rest` as it is. Pieces are put together by `Lexes.append`: each is judged before what follows it,
because a name, a number or an operator ends only where its longest spelling does.

* `Lexes.of_lexemes`: a fixed text, by running the lexer over a known number of lexemes.
* `lexes_name`, `lexes_symbol`, `lexes_label`, `lexes_number`: the spellings that vary.
* `joinBreaks_lines`: what joining line breaks leaves of lines that are not empty: all of them.
-/

namespace StepSequencer.Script

/-! ### One lexeme -/

section Lexeme

variable {c : Char} {cs : List Char} {tok : Tok} {k : Nat}

/-- A lexeme that is a token comes before the tokens of the text after it. -/
theorem tokensFrom_token (h : lexeme c cs = (.token tok, k)) (line : Nat) :
    tokensFrom line (c :: cs) =
      (tokensFrom (line + (c :: cs.take k).count '\n') (cs.drop k)).map (⟨line, tok⟩ :: ·) := by
  rw [tokensFrom, h]
  dsimp only
  cases tokensFrom (line + (c :: cs.take k).count '\n') (cs.drop k) <;> rfl

/-- A blank or a comment leaves the tokens of the text after it. -/
theorem tokensFrom_skipped (h : lexeme c cs = (.skipped, k)) (line : Nat) :
    tokensFrom line (c :: cs) = tokensFrom (line + (c :: cs.take k).count '\n') (cs.drop k) := by
  rw [tokensFrom, h]

end Lexeme

/-! ### Pieces of a text -/

/-- The text becomes the tokens and leaves `rest`, on whatever line it starts. -/
def Lexes (cs : List Char) (toks : List Tok) (rest : List Char) : Prop :=
  ∀ line, ∃ ts : List Token, ts.map (·.tok) = toks ∧
    tokensFrom line (cs ++ rest) = (tokensFrom (line + cs.count '\n') rest).map (ts ++ ·)

namespace Lexes

variable {c : Char} {as bs cs rest : List Char} {ss ts : List Tok} {tok : Tok} {k : Nat}

theorem nil : Lexes [] [] rest := by
  intro line
  refine ⟨[], rfl, ?_⟩
  show tokensFrom line rest = (tokensFrom line rest).map ([] ++ ·)
  cases tokensFrom line rest <;> rfl

/-- Two pieces one after the other. -/
theorem append (ha : Lexes as ss (bs ++ rest)) (hb : Lexes bs ts rest) :
    Lexes (as ++ bs) (ss ++ ts) rest := by
  intro line
  obtain ⟨s, hs, htokens⟩ := ha line
  obtain ⟨t, ht, hrest⟩ := hb (line + as.count '\n')
  refine ⟨s ++ t, by rw [List.map_append, hs, ht], ?_⟩
  rw [List.append_assoc, htokens, hrest, List.count_append, ← Nat.add_assoc]
  cases tokensFrom (line + as.count '\n' + bs.count '\n') rest with
  | error e => rfl
  | ok r => exact congrArg Except.ok (List.append_assoc s t r).symm

/-- A lexeme that is a token, with the text after it. -/
theorem take_token (h : lexeme c cs = (.token tok, k)) :
    Lexes (c :: cs.take k) [tok] (cs.drop k) := by
  intro line
  refine ⟨[⟨line, tok⟩], rfl, ?_⟩
  rw [List.cons_append, List.take_append_drop, tokensFrom_token h]
  rfl

/-- A blank or a comment, with the text after it. -/
theorem take_skipped (h : lexeme c cs = (.skipped, k)) : Lexes (c :: cs.take k) [] (cs.drop k) := by
  intro line
  refine ⟨[], rfl, ?_⟩
  rw [List.cons_append, List.take_append_drop, tokensFrom_skipped h]
  cases tokensFrom (line + (c :: cs.take k).count '\n') (cs.drop k) <;> rfl

/-- A piece that is one lexeme. -/
theorem token (h : lexeme c (cs ++ rest) = (.token tok, cs.length)) : Lexes (c :: cs) [tok] rest := by
  have hpiece := take_token h
  rwa [List.take_left, List.drop_left] at hpiece

end Lexes

/-! ### Fixed texts -/

/-- The tokens of the first lexemes of a text, and what is left. -/
def lexemes : Nat → List Char → Option (List Tok × List Char)
  | 0, cs => some ([], cs)
  | _ + 1, [] => none
  | n + 1, c :: cs =>
    match lexeme c cs with
    | (.skipped, length) => lexemes n (cs.drop length)
    | (.token tok, length) => (lexemes n (cs.drop length)).map fun (ts, rest) ↦ (tok :: ts, rest)
    | _ => none

theorem lexes_of_lexemes {n : Nat} {text rest : List Char} {toks : List Tok}
    (h : lexemes n text = some (toks, rest)) : ∃ cs, text = cs ++ rest ∧ Lexes cs toks rest := by
  induction n generalizing text toks with
  | zero =>
    obtain ⟨rfl, rfl⟩ := Prod.mk.inj (Option.some.inj h)
    exact ⟨[], rfl, .nil⟩
  | succ n ih =>
    rcases text with - | ⟨c, cs⟩
    · cases h
    · rw [lexemes] at h
      split at h
      · next k hk =>
        obtain ⟨ds, hds, hlexes⟩ := ih h
        have hpiece := Lexes.take_skipped hk
        rw [hds] at hpiece
        refine ⟨c :: cs.take k ++ ds, ?_, hpiece.append hlexes⟩
        rw [List.append_assoc, ← hds, List.cons_append, List.take_append_drop]
      · next tok k hk =>
        obtain ⟨⟨ts, r⟩, hts, heq⟩ := Option.map_eq_some_iff.mp h
        obtain ⟨rfl, rfl⟩ := Prod.mk.inj heq
        obtain ⟨ds, hds, hlexes⟩ := ih hts
        have hpiece := Lexes.take_token hk
        rw [hds] at hpiece
        refine ⟨c :: cs.take k ++ ds, ?_, hpiece.append hlexes⟩
        rw [List.append_assoc, ← hds, List.cons_append, List.take_append_drop]
      · cases h

/-- A text whose first lexemes leave `rest`. -/
theorem Lexes.of_lexemes {n : Nat} {cs rest : List Char} {toks : List Tok}
    (h : lexemes n (cs ++ rest) = some (toks, rest)) : Lexes cs toks rest := by
  obtain ⟨ds, hds, hlexes⟩ := lexes_of_lexemes h
  rwa [List.append_cancel_right hds]

/-! ### Names -/

/-- A name ends before this text. -/
def endsName (rest : List Char) : Bool :=
  rest.head?.all fun c ↦ !continuesName c && c != '?' && c != ':'

/-- A number ends before this text. -/
def endsNumber (rest : List Char) : Bool :=
  rest.head?.all fun c ↦ !continuesNumber c && c != '.'

/-- The text is spelled like a name. -/
def isName (s : String) : Bool :=
  match s.toList with
  | [] => false
  | c :: cs => startsName c && cs.all continuesName

theorem isName_iff {s : String} :
    isName s = true ↔ ∃ c cs, s.toList = c :: cs ∧ startsName c = true ∧
      ∀ d ∈ cs, continuesName d = true := by
  rw [isName]
  split
  · next h =>
    rw [h]
    constructor
    · exact fun h ↦ by cases h
    · rintro ⟨_, _, h, _⟩
      cases h
  · next c cs h =>
    rw [h, Bool.and_eq_true, List.all_eq_true]
    constructor
    · exact fun hname ↦ ⟨c, cs, rfl, hname⟩
    · rintro ⟨d, ds, heq, hname⟩
      obtain ⟨rfl, rfl⟩ := List.cons.inj heq
      exact hname

theorem lexeme_of_startsName {c : Char} {cs : List Char} (h : startsName c = true) :
    lexeme c cs = nameLexeme c cs := by
  rw [lexeme.eq_def]
  split
  case h_34 => rw [if_pos h]
  all_goals exact absurd h (by decide)

theorem stops_of_endsName {rest : List Char} (h : endsName rest = true) :
    rest.head?.all (!continuesName ·) = true := by
  rcases rest with - | ⟨d, rest⟩
  · rfl
  · exact (Bool.and_eq_true_iff.mp (Bool.and_eq_true_iff.mp h).1).1

theorem continuesName_of_startsName {c : Char} (h : startsName c = true) :
    continuesName c = true := by
  rcases Bool.or_eq_true_iff.mp h with h | h
  · rw [continuesName, Char.isAlphanum, h, Bool.true_or, Bool.true_or]
  · rw [continuesName, h, Bool.or_true]

/-- A name, before a text that does not go on with it. -/
theorem lexes_name {s : String} {rest : List Char} (hs : isName s = true)
    (hrest : endsName rest = true) : Lexes s.toList [.ident s] rest := by
  obtain ⟨c, cs, htext, hstart, hall⟩ := isName_iff.mp hs
  obtain ⟨htake, hdrop⟩ := takeWhile_append_of_head? hall (stops_of_endsName hrest)
  have hname : String.ofList (c :: cs) = s := by rw [← htext, String.ofList_toList]
  rw [htext]
  refine Lexes.token ?_
  rw [lexeme_of_startsName hstart, nameLexeme, htake, hdrop]
  split
  · exact absurd (show false = true from hrest) Bool.false_ne_true
  · exact absurd (show false = true from hrest) Bool.false_ne_true
  · rw [hname]
    rfl

/-- A label with its colon. -/
theorem lexes_label {s : String} {rest : List Char} (hs : isName s = true) :
    Lexes (s.toList ++ [':']) [.label s] rest := by
  obtain ⟨c, cs, htext, hstart, hall⟩ := isName_iff.mp hs
  have hname : String.ofList (c :: cs) = s := by rw [← htext, String.ofList_toList]
  have hsplit : cs ++ [':'] ++ rest = cs ++ ':' :: rest := List.append_assoc cs [':'] rest
  obtain ⟨htake, hdrop⟩ := takeWhile_append_of_head? (r := ':' :: rest) hall rfl
  rw [htext]
  show Lexes (c :: (cs ++ [':'])) _ _
  refine Lexes.token ?_
  rw [lexeme_of_startsName hstart, nameLexeme, hsplit, htake, hdrop, hname, List.length_append]
  rfl

/-- A symbol with its colon. -/
theorem lexes_symbol {s : String} {rest : List Char} (hs : isName s = true)
    (hrest : endsName rest = true) : Lexes (':' :: s.toList) [.symbol s] rest := by
  obtain ⟨c, cs, htext, hstart, hall⟩ := isName_iff.mp hs
  have hcontinues : ∀ d ∈ c :: cs, continuesName d = true := by
    rw [List.forall_mem_cons]
    exact ⟨continuesName_of_startsName hstart, hall⟩
  obtain ⟨htake, hdrop⟩ := takeWhile_append_of_head? hcontinues (stops_of_endsName hrest)
  have hname : String.ofList (c :: cs) = s := by rw [← htext, String.ofList_toList]
  rw [htext]
  refine Lexes.token ?_
  have hhead : (c :: cs ++ rest).head?.any startsName = true := hstart
  show symbolLexeme (c :: cs ++ rest) = _
  rw [symbolLexeme, if_pos hhead, htake, hdrop]
  split
  · exact absurd (show false = true from hrest) Bool.false_ne_true
  · show (LexemeKind.token (.symbol (String.ofList (c :: cs))), (c :: cs).length) = _
    rw [hname]

/-! ### Numbers -/

theorem startsName_of_isDigit {c : Char} (h : c.isDigit = true) : startsName c = false := by
  rw [startsName, Bool.or_eq_false_iff, beq_eq_false_iff_ne]
  constructor
  · show (decide (65 ≤ c.val ∧ c.val ≤ 90) || (decide (97 ≤ c.val) && decide (c.val ≤ 122))) = false
    simp [Char.isDigit, UInt32.le_iff_toNat_le] at h ⊢
    omega
  · rintro rfl
    cases h

theorem lexeme_of_isDigit {c : Char} {cs : List Char} (h : c.isDigit = true) :
    lexeme c cs = numberLexeme c cs := by
  rw [lexeme.eq_def]
  split
  case h_34 => rw [startsName_of_isDigit h, if_neg Bool.false_ne_true, if_pos h]
  all_goals exact absurd h (by decide)

theorem stops_of_endsNumber {rest : List Char} (h : endsNumber rest = true) :
    rest.head?.all (!continuesNumber ·) = true := by
  rcases rest with - | ⟨d, rest⟩
  · rfl
  · exact (Bool.and_eq_true_iff.mp h).1

theorem continuesNumber_of_isDigit {c : Char} (h : c.isDigit = true) : continuesNumber c = true := by
  rw [continuesNumber, h, Bool.true_or]

theorem digitStops_of_endsNumber {rest : List Char} (h : endsNumber rest = true) :
    rest.head?.all (!Char.isDigit ·) = true := by
  rcases rest with - | ⟨d, rest⟩
  · rfl
  · rw [endsNumber, List.head?_cons, Option.all_some, continuesNumber, Bool.not_or, Bool.and_assoc,
      Bool.and_eq_true] at h
    exact h.1

/-- The number that a token stands for, if it stands for one. -/
def Tok.number? : Tok → Option Float
  | .int n => some (Word.toFloat n)
  | .float x => some x
  | _ => none

/-- The text is one lexeme, and that is a number. -/
def IsNumber (cs : List Char) (tok : Tok) : Prop :=
  ∃ c ds, cs = c :: ds ∧ lexeme c ds = (.token tok, ds.length) ∧ tok.number?.isSome = true

/-- A number begins with a digit. -/
theorem isDigit_of_lexeme {c : Char} {cs : List Char} {tok : Tok} {k : Nat}
    (h : lexeme c cs = (.token tok, k)) (htok : tok.number?.isSome = true) : c.isDigit = true := by
  have hno {t : Tok} {n : Nat} (heq : (LexemeKind.token t, n) = (.token tok, k))
      (ht : t.number? = none) : False := by
    cases heq
    rw [ht] at htok
    cases htok
  rw [lexeme.eq_def] at h
  split at h
  -- a colon, the two quotation marks, and then names and numbers
  case h_31 =>
    rw [symbolLexeme] at h
    split at h
    · dsimp only at h
      split at h <;> exact (hno h rfl).elim
    · cases h
  case h_32 | h_33 =>
    rw [quotedLexeme.eq_def] at h
    split at h
    · exact (hno h rfl).elim
    · cases h
  case h_34 =>
    split at h
    · rw [nameLexeme.eq_def] at h
      dsimp only at h
      split at h <;> exact (hno h rfl).elim
    · split at h
      · assumption
      · cases h
  all_goals first | exact (hno h rfl).elim | cases h

/-- The longest part of a text whose characters have a property, and what follows it. -/
theorem exists_span (p : Char → Bool) (cs : List Char) :
    ∃ as bs, cs = as ++ bs ∧ (∀ c ∈ as, p c = true) ∧ bs.head?.all (!p ·) = true := by
  induction cs with
  | nil => exact ⟨[], [], rfl, fun c hc ↦ (by cases hc), rfl⟩
  | cons c cs ih =>
    rcases hc : p c with - | -
    case false => exact ⟨[], c :: cs, rfl, fun c hc ↦ (by cases hc), (Bool.not_eq_true' _).mpr hc⟩
    case true =>
      obtain ⟨as, bs, rfl, has, hbs⟩ := ih
      exact ⟨c :: as, bs, rfl, List.forall_mem_cons.mpr ⟨hc, has⟩, hbs⟩

/-- A number lexeme is digits, or digits on both sides of a point, and stays so before a text that
does not go on with it. -/
theorem numberLexeme_append {c : Char} {cs rest : List Char} {tok : Tok}
    (h : numberLexeme c cs = (.token tok, cs.length)) (hrest : endsNumber rest = true) :
    numberLexeme c (cs ++ rest) = (.token tok, cs.length) := by
  obtain ⟨as, bs, rfl, has, hbs⟩ := exists_span continuesNumber cs
  obtain ⟨htake, hdrop⟩ := takeWhile_append_of_head? has hbs
  rw [numberLexeme, htake, hdrop] at h
  dsimp only at h
  split at h
  · next r =>
    split at h
    · -- the point would be left over
      split at h
      · have hlength := (Prod.mk.inj h).2
        simp only [List.length_cons, List.length_append] at hlength
        omega
      · cases (Prod.mk.inj h).1
    · next hne =>
      -- digits after the point, up to the end of the lexeme
      have hlength := (Prod.mk.inj h).2
      simp only [List.length_cons, List.length_append] at hlength
      have hall : r.takeWhile Char.isDigit = r :=
        (List.takeWhile_prefix _).eq_of_length (by omega)
      have hdigits : ∀ d ∈ r, d.isDigit = true := by
        rw [← hall]
        exact fun d hd ↦ List.all_eq_true.mp List.all_takeWhile d hd
      rw [hall] at hne h
      obtain ⟨hfraction, -⟩ := takeWhile_append_of_head? hdigits (digitStops_of_endsNumber hrest)
      obtain ⟨htake, hdrop⟩ := takeWhile_append_of_head? (r := '.' :: (r ++ rest)) has rfl
      rw [List.append_assoc, List.cons_append, numberLexeme, htake, hdrop]
      dsimp only
      split
      · next r' heq =>
        obtain rfl := (List.cons.inj heq).2
        rw [hfraction, if_neg hne]
        exact h
      · next hpoint => exact absurd rfl (hpoint _)
  · -- a whole number is all of the lexeme
    obtain rfl : bs = [] := by
      split at h
      · have hlength := (Prod.mk.inj h).2
        simp only [List.length_cons, List.length_append] at hlength
        exact List.length_eq_zero_iff.mp (by omega)
      · cases (Prod.mk.inj h).1
    obtain ⟨htake, hdrop⟩ := takeWhile_append_of_head? has (stops_of_endsNumber hrest)
    rw [List.append_nil] at h ⊢
    rw [numberLexeme, htake, hdrop]
    dsimp only
    split
    · exact absurd (show false = true from hrest) Bool.false_ne_true
    · exact h

/-- A number before a text that does not go on with it. -/
theorem lexes_number {cs rest : List Char} {tok : Tok} (h : IsNumber cs tok)
    (hrest : endsNumber rest = true) : Lexes cs [tok] rest := by
  obtain ⟨c, ds, rfl, hlexeme, htok⟩ := h
  have hc := isDigit_of_lexeme hlexeme htok
  refine Lexes.token ?_
  rw [lexeme_of_isDigit hc] at hlexeme ⊢
  exact numberLexeme_append hlexeme hrest

/-- A whole number in digits. -/
theorem isNumber_whole {digits : List Char} {w : Int64} (hne : digits ≠ [])
    (hall : ∀ c ∈ digits, c.isDigit = true) (h : w.toInt = readDigits digits) :
    IsNumber digits (.int w) := by
  rcases digits with - | ⟨c, cs⟩
  · exact absurd rfl hne
  have hcs : ∀ d ∈ cs, continuesNumber d = true := fun d hd ↦
    continuesNumber_of_isDigit (hall d (List.mem_cons_of_mem c hd))
  obtain ⟨htake, hdrop⟩ := takeWhile_append_of_head? (r := []) hcs rfl
  rw [List.append_nil] at htake hdrop
  refine ⟨c, cs, rfl, ?_, rfl⟩
  rw [lexeme_of_isDigit (hall c (List.mem_cons_self ..)), numberLexeme, htake, hdrop,
    List.filter_eq_self.mpr hall, Word.ofInt?_eq_some_iff.mpr h]
  rfl

theorem isNumber_toDigits {n : Nat} {w : Int64} (h : w.toInt = n) :
    IsNumber (Nat.toDigits 10 n) (.int w) := by
  exact isNumber_whole Nat.toDigits_ne_nil (fun _ ↦ isDigit_of_mem_toDigits)
    (by rw [readDigits_toDigits, h])

/-! ### Line breaks -/

/-- The tokens are lines that are not empty, each with its line break. -/
inductive Lines : List Tok → Prop where
  | nil : Lines []
  | line {l ts : List Tok} (nonempty : l ≠ []) (unbroken : ∀ t ∈ l, t.isNewline = false)
      (rest : Lines ts) : Lines (l ++ .newline :: ts)

theorem joinBreaks_append {broken : Bool} {l : List Token} {rest : List Token} (hne : l ≠ [])
    (h : ∀ t ∈ l, t.tok.isNewline = false) :
    joinBreaks broken (l ++ rest) = l ++ joinBreaks false rest := by
  induction l generalizing broken with
  | nil => exact absurd rfl hne
  | cons t l ih =>
    rw [List.forall_mem_cons] at h
    rw [List.cons_append, joinBreaks, h.1, if_neg Bool.false_ne_true]
    rcases l with - | ⟨u, l⟩
    · rfl
    · rw [ih (List.cons_ne_nil u l) h.2]
      rfl

/-- **Lines** are what is left when a last line break is joined to theirs. -/
theorem joinBreaks_of_lines {ts : List Token} (h : Lines (ts.map (·.tok))) (line : Nat) :
    joinBreaks true (ts ++ [⟨line, .newline⟩]) = ts := by
  generalize htoks : ts.map (·.tok) = toks at h
  induction h generalizing ts with
  | nil =>
    obtain rfl := List.map_eq_nil_iff.mp htoks
    rfl
  | @line l toks hne hunbroken hrest ih =>
    obtain ⟨as, rest, rfl, has, hbreak⟩ := List.map_eq_append_iff.mp htoks
    obtain ⟨b, bs, rfl, hb, hbs⟩ := List.map_eq_cons_iff.mp hbreak
    have hne' : as ≠ [] := by
      rintro rfl
      exact hne has.symm
    have hplain : ∀ t ∈ as, t.tok.isNewline = false := fun t ht ↦
      hunbroken t.tok (has ▸ List.mem_map_of_mem ht)
    have hnewline : b.tok.isNewline = true := by rw [hb, Tok.isNewline]
    rw [List.append_assoc, joinBreaks_append hne' hplain, List.cons_append, joinBreaks,
      if_pos hnewline, if_neg Bool.false_ne_true, ih hbs]

theorem exists_tokens_of_lexes {text : String} {toks : List Tok} (h : Lexes text.toList toks []) :
    ∃ ts line, ts.map (·.tok) = toks ∧
      tokenize text = .ok (joinBreaks true (ts ++ [⟨line, .newline⟩])) := by
  obtain ⟨ts, rfl, htokens⟩ := h 1
  refine ⟨ts, 1 + text.toList.count '\n', rfl, ?_⟩
  have htext : tokensFrom 1 text.toList = .ok ts := by
    rw [← List.append_nil text.toList, htokens, tokensFrom]
    exact congrArg Except.ok (List.append_nil ts)
  rw [tokenize, htext]
  rfl

/-- **A text of lines** has the tokens that its pieces have. -/
theorem tokenize_of_lexes {text : String} {toks : List Tok} (h : Lexes text.toList toks [])
    (hlines : Lines toks) : ∃ ts, tokenize text = .ok ts ∧ ts.map (·.tok) = toks := by
  obtain ⟨ts, line, rfl, htokens⟩ := exists_tokens_of_lexes h
  exact ⟨ts, htokens.trans (congrArg Except.ok (joinBreaks_of_lines hlines line)), rfl⟩

/-- A text without a line break is one line. -/
theorem tokenize_of_unbroken {text : String} {toks : List Tok} (h : Lexes text.toList toks [])
    (hne : toks ≠ []) (hunbroken : ∀ t ∈ toks, t.isNewline = false) :
    ∃ ts, tokenize text = .ok ts ∧ ts.map (·.tok) = toks ++ [.newline] := by
  obtain ⟨ts, line, rfl, htokens⟩ := exists_tokens_of_lexes h
  have hne' : ts ≠ [] := fun hnil ↦ hne (List.map_eq_nil_iff.mpr hnil)
  rw [joinBreaks_append hne' (List.forall_mem_map.mp hunbroken)] at htokens
  exact ⟨_, htokens, List.map_append⟩

end StepSequencer.Script
