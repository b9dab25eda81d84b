import Mathlib.Data.List.Destutter
import Mathlib.Logic.Relation
import Mathlib.Order.Monotone.Defs
import StepSequencer.Proofs.Attempts
import StepSequencer.Proofs.Script.Lexemes
import StepSequencer.Proofs.Script.Quoting

/-!
# The lines that tokens stand on

A token stands on the line on which it begins, whatever takes up the lines before it. `tokensFrom`
only counts line feeds on its way, so the lexemes are told here with the number of characters before
each (`segmentsFrom`), and the line is read off that number.

* `tokenize_eq_ok`: the tokens of a text, each on its line, without the line breaks that end no
  line.
* `tokensFrom_padded`: a blank or a comment before a line feed leaves no trace. It ends the lexeme
  that comes before it where the line feed itself would (`lexeme_append`), unless that is a comment,
  which then takes it in.
-/

namespace StepSequencer.Script

/-! ### The lexemes of a text -/

/-- A lexeme, and how many characters of the text come before it. -/
structure Segment where
  place : Nat
  kind : LexemeKind
  text : List Char

/-- The lexemes of a text that has a number of characters before it. -/
def segmentsFrom (place : Nat) : List Char → List Segment
  | [] => []
  | c :: cs =>
    let (kind, length) := lexeme c cs
    ⟨place, kind, c :: cs.take length⟩ ::
      segmentsFrom (place + (c :: cs.take length).length) (cs.drop length)
termination_by cs => cs.length
decreasing_by simp only [List.length_drop, List.length_cons]; omega

/-- The line of the character that has a number of characters before it. -/
def lineOf (text : List Char) (place : Nat) : Nat := 1 + (text.take place).count '\n'

/-- The token of a lexeme of the text, on the line on which it begins. -/
def Segment.token? (text : List Char) (s : Segment) : Option Token :=
  match s.kind with
  | .token tok => some ⟨lineOf text s.place, tok⟩
  | _ => none

/-- The tokens of the lexemes, and the line break at the end of the text. -/
def placedTokens (text : List Char) : List Token :=
  (segmentsFrom 0 text).filterMap (·.token? text) ++ [⟨lineOf text text.length, .newline⟩]

/-- The first segment is the first lexeme, and the others follow behind it. -/
theorem segmentsFrom_cons {c : Char} {cs : List Char} {kind : LexemeKind} {k : Nat}
    (h : lexeme c cs = (kind, k)) (place : Nat) : segmentsFrom place (c :: cs) =
      ⟨place, kind, c :: cs.take k⟩ ::
        segmentsFrom (place + (c :: cs.take k).length) (cs.drop k) := by
  rw [segmentsFrom, h]

/-- The segments make up the text. -/
theorem flatMap_segmentsFrom (n : Nat) (cs : List Char) :
    (segmentsFrom n cs).flatMap (·.text) = cs := by
  fun_induction segmentsFrom n cs with
  | case1 => rfl
  | case2 n c cs kind length hlexeme ih =>
    rw [List.flatMap_cons, ih, List.cons_append, List.take_append_drop]

/-- A segment is the part of the text that is at its place. -/
theorem exists_of_mem_segmentsFrom {n : Nat} {cs : List Char} {s : Segment}
    (hs : s ∈ segmentsFrom n cs) :
    ∃ before after, cs = before ++ s.text ++ after ∧ s.place = n + before.length := by
  fun_induction segmentsFrom n cs with
  | case1 => cases hs
  | case2 n c cs kind length hlexeme ih =>
    rcases List.mem_cons.mp hs with rfl | hs
    · exact ⟨[], cs.drop length, by simp, rfl⟩
    · obtain ⟨before, after, hcs, hplace⟩ := ih hs
      refine ⟨c :: cs.take length ++ before, after, ?_, ?_⟩
      · rw [List.append_assoc, List.append_assoc, ← List.append_assoc before, ← hcs]
        simp
      · rw [hplace, List.length_append, Nat.add_assoc]

/-- Segments stand within the text. -/
theorem place_le_of_mem_segmentsFrom {n : Nat} {cs : List Char} {s : Segment}
    (hs : s ∈ segmentsFrom n cs) : n ≤ s.place ∧ s.place ≤ n + cs.length := by
  obtain ⟨before, after, rfl, hplace⟩ := exists_of_mem_segmentsFrom hs
  simp only [List.length_append]
  omega

/-- Segments stand in the order of their places. -/
theorem pairwise_segmentsFrom (n : Nat) (cs : List Char) :
    (segmentsFrom n cs).Pairwise (·.place ≤ ·.place) := by
  fun_induction segmentsFrom n cs with
  | case1 => exact .nil
  | case2 n c cs kind length hlexeme ih =>
    refine .cons (fun s hs ↦ ?_) ih
    exact (Nat.le_add_right n _).trans (place_le_of_mem_segmentsFrom hs).1

/-! ### Lines -/

/-- A later place is on the same line or on a later one. -/
theorem lineOf_mono (text : List Char) : Monotone (lineOf text) := fun _ _ h ↦
  Nat.add_le_add_left ((List.take_sublist_take_left h).count_le '\n') 1

/-- The line of a place is one more than the line breaks before it. -/
theorem lineOf_append (pre suf : List Char) :
    lineOf (pre ++ suf) pre.length = 1 + pre.count '\n' := by
  rw [lineOf, List.take_left]

/-- **The tokens** of a text that comes after another are those of its lexemes, each on the line on
which it begins in the whole. -/
theorem eq_of_tokensFrom {n : Nat} {pre suf : List Char} {ts : List Token} (hn : pre.length = n)
    (h : tokensFrom (1 + pre.count '\n') suf = .ok ts) :
    ts = (segmentsFrom n suf).filterMap (·.token? (pre ++ suf)) := by
  fun_induction segmentsFrom n suf generalizing pre ts with
  | case1 =>
    rw [tokensFrom] at h
    exact (Except.ok.inj h).symm
  | case2 n c cs kind length hlexeme ih =>
    -- the lexeme moves over to what comes before
    have hsplit : pre ++ c :: cs = pre ++ c :: cs.take length ++ cs.drop length := by simp
    have hlength : (pre ++ c :: cs.take length).length = n + (c :: cs.take length).length := by
      rw [List.length_append, hn]
    have hplace : lineOf (pre ++ c :: cs) n = 1 + pre.count '\n' := hn ▸ lineOf_append pre (c :: cs)
    cases kind with
    | skipped =>
      rw [tokensFrom_skipped hlexeme, Nat.add_assoc, ← List.count_append] at h
      rw [ih hlength h, hsplit]
      rfl
    | token tok =>
      rw [tokensFrom_token hlexeme, Nat.add_assoc, ← List.count_append] at h
      obtain ⟨rest, hrest, rfl⟩ := Attempts.map_eq_ok_iff.mp h
      rw [ih hlength hrest, ← hsplit, ← hplace]
      rfl
    | unexpected =>
      rw [tokensFrom, hlexeme] at h
      cases h
    | numberTooLarge =>
      rw [tokensFrom, hlexeme] at h
      cases h

/-- A token is on the line of its first character. -/
theorem line_of_token? {text : List Char} {s : Segment} {t : Token} (h : s.token? text = some t) :
    t.line = lineOf text s.place := by
  rw [Segment.token?] at h
  split at h
  · exact congrArg Token.line (Option.some.inj h).symm
  · cases h

/-- Tokens stand in the order of their lines. -/
theorem pairwise_placedTokens (text : List Char) :
    (placedTokens text).Pairwise (·.line ≤ ·.line) := by
  refine List.pairwise_append.mpr ⟨?_, .cons (fun _ h ↦ (by cases h)) .nil, fun t ht u hu ↦ ?_⟩
  · rw [List.pairwise_filterMap]
    refine (pairwise_segmentsFrom 0 text).imp fun hplace t ht u hu ↦ ?_
    rw [line_of_token? ht, line_of_token? hu]
    exact lineOf_mono text hplace
  · obtain ⟨s, hs, ht⟩ := List.mem_filterMap.mp ht
    obtain rfl := List.mem_singleton.mp hu
    rw [line_of_token? ht]
    exact lineOf_mono text ((place_le_of_mem_segmentsFrom hs).2.trans_eq (Nat.zero_add _))

/-! ### Joined line breaks -/

/-- One of the tokens is no line break. -/
def Apart (t u : Token) : Prop := (t.tok.isNewline && u.tok.isNewline) = false

instance : DecidableRel Apart := fun _ _ ↦ inferInstanceAs (Decidable (_ = _))

/-- The tokens without the line breaks that come first or follow another one. -/
def joined (ts : List Token) : List Token := (ts.dropWhile (·.tok.isNewline)).destutter Apart

/-- Line breaks end lines: none comes first, none follows another, and one comes last. -/
structure EndsLines (ts : List Token) : Prop where
  first : ∀ t ∈ ts.head?, t.tok.isNewline = false
  apart : ts.IsChain Apart
  last : ∀ t ∈ ts.getLast?, t.tok.isNewline = true

theorem cons_joinBreaks (t : Token) (ts : List Token) :
    t :: joinBreaks t.tok.isNewline ts = ts.destutter' Apart t := by
  induction ts generalizing t with
  | nil => rfl
  | cons u ts ih =>
    rw [List.destutter'_cons, joinBreaks]
    rcases ht : t.tok.isNewline with - | - <;> rcases hu : u.tok.isNewline with - | -
    case true.true =>
      have hjoin : ¬Apart t u := by simp [Apart, ht, hu]
      rw [if_pos rfl, if_pos rfl, if_neg hjoin, ← ih t, ht]
    all_goals
      have hkeep : Apart t u := by simp [Apart, ht, hu]
      rw [if_pos hkeep, ← ih u, hu]
      rfl

/-- Line breaks without a token between them become one. -/
theorem joinBreaks_eq_joined (ts : List Token) : joinBreaks true ts = joined ts := by
  induction ts with
  | nil => rfl
  | cons t ts ih =>
    rw [joinBreaks, joined, List.dropWhile_cons]
    rcases ht : t.tok.isNewline with - | -
    · rw [if_neg Bool.false_ne_true, if_neg Bool.false_ne_true, ← ht]
      exact cons_joinBreaks t ts
    · rw [if_pos rfl, if_pos rfl, if_pos rfl]
      exact ih

theorem isNewline_of_mem_getLast?_destutter' {t last : Token} {ts : List Token}
    (hlast : last.tok.isNewline = true) :
    ∀ u ∈ ((ts ++ [last]).destutter' Apart t).getLast?, u.tok.isNewline = true := by
  induction ts generalizing t with
  | nil =>
    rw [List.nil_append, List.destutter'_singleton]
    split
    · exact fun u hu ↦ Option.some.inj hu ▸ hlast
    · next hjoin =>
      rw [Apart, Bool.not_eq_false, Bool.and_eq_true] at hjoin
      exact fun u hu ↦ Option.some.inj hu ▸ hjoin.1
  | cons v ts ih =>
    rw [List.cons_append, List.destutter'_cons]
    split
    · intro u hu
      have hne := List.destutter'_ne_nil (ts ++ [last]) Apart (a := v)
      obtain ⟨a, as, has⟩ := List.exists_cons_of_ne_nil hne
      rw [has, List.getLast?_cons_cons, ← has] at hu
      exact ih u hu
    · exact ih

theorem endsLines_joined {ts : List Token} {last : Token} (hlast : last.tok.isNewline = true) :
    EndsLines (joined (ts ++ [last])) := by
  have hfirst := List.head?_dropWhile_not (·.tok.isNewline) ts
  rw [joined, List.dropWhile_append]
  generalize ts.dropWhile _ = ds at hfirst ⊢
  rcases ds with - | ⟨t, rest⟩
  · rw [if_pos List.isEmpty_nil, List.dropWhile_cons, if_pos hlast]
    exact ⟨fun _ h ↦ (by cases h), .nil, fun _ h ↦ (by cases h)⟩
  · rw [if_neg (by simp), List.cons_append, List.destutter_cons']
    refine ⟨fun u hu ↦ ?_, List.isChain_destutter' .., isNewline_of_mem_getLast?_destutter' hlast⟩
    rw [← cons_joinBreaks] at hu
    exact Option.some.inj hu ▸ hfirst

/-- **The tokens of a text** stand on the lines on which they begin; of the line breaks, those are
left that end a line. -/
theorem tokenize_eq_ok {text : String} {ts : List Token} (h : tokenize text = .ok ts) :
    ts = joined (placedTokens text.toList) ∧ ts.Pairwise (·.line ≤ ·.line) ∧ EndsLines ts := by
  rw [tokenize_eq] at h
  obtain ⟨us, hus, rfl⟩ := Attempts.map_eq_ok_iff.mp h
  have hall : us ++ [⟨1 + text.toList.count '\n', .newline⟩] = placedTokens text.toList := by
    rw [placedTokens, lineOf, List.take_length, eq_of_tokensFrom List.length_nil hus]
    rfl
  rw [joinBreaks_eq_joined, hall]
  refine ⟨rfl, ?_, endsLines_joined rfl⟩
  have hsublist : (joined (placedTokens text.toList)).Sublist (placedTokens text.toList) :=
    (List.destutter_sublist ..).trans (List.dropWhile_sublist _)
  exact (pairwise_placedTokens text.toList).sublist hsublist

/-! ### Blanks and comments before a line feed -/

/-- Blanks, with or without a comment after them. -/
def IsPadding (cs : List Char) : Prop :=
  ∃ blanks comment, cs = blanks ++ comment ∧ (∀ c ∈ blanks, isSpace c = true) ∧
    (comment = [] ∨ ∃ words, comment = '#' :: words ∧ '\n' ∉ words)

/-- The lexeme is a quoted text or a comment, or begins like one. -/
def Segment.isQuoteOrComment (s : Segment) : Bool :=
  s.text.head?.any fun c ↦ c == '\'' || c == '"' || c == '#'

/-- In a text that comes after `place` characters, the one that comes after `n` is in no quoted text
and in no comment. -/
def IsOutside (place : Nat) (text : List Char) (n : Nat) : Prop :=
  ∀ s ∈ segmentsFrom place text, s.place ≤ n → n < s.place + s.text.length →
    s.isQuoteOrComment = false

/-- The second text is the first with blanks or a comment before a line feed. -/
def Padded (text padded : String) : Prop :=
  ∃ before padding after, text.toList = before ++ '\n' :: after ∧
    padded.toList = before ++ (padding ++ '\n' :: after) ∧ IsPadding padding ∧
    IsOutside 0 text.toList before.length

theorem IsPadding.beginsStop {padding after : List Char} (h : IsPadding padding) :
    BeginsStop (padding ++ '\n' :: after) := by
  obtain ⟨blanks, comment, rfl, hblanks, hcomment⟩ := h
  rcases blanks with - | ⟨b, blanks⟩
  · obtain rfl | ⟨words, rfl, -⟩ := hcomment
    · exact ⟨'\n', after, rfl, by decide⟩
    · exact ⟨'#', words ++ '\n' :: after, rfl, by decide⟩
  · refine ⟨b, _, rfl, ?_⟩
    rw [isStop, hblanks b List.mem_cons_self]
    rfl

/-- Padding stays on its line. -/
theorem IsPadding.newline_notMem {padding : List Char} (h : IsPadding padding) :
    '\n' ∉ padding := by
  obtain ⟨blanks, comment, rfl, hblanks, hcomment⟩ := h
  rw [List.mem_append, not_or]
  constructor
  · exact fun hmem ↦ absurd (hblanks '\n' hmem) (by decide)
  · obtain rfl | ⟨words, rfl, hwords⟩ := hcomment
    · exact List.not_mem_nil
    · simpa using hwords

theorem lexeme_of_isSpace {c : Char} {cs : List Char} (h : isSpace c = true) :
    lexeme c cs = (.skipped, 0) := by
  have hblank : c = ' ' ∨ c = '\t' ∨ c = '\r' ∨ c = '\x0c' := by simpa [isSpace, or_assoc] using h
  rcases hblank with rfl | rfl | rfl | rfl <;> rw [lexeme]

/-- A comment that is not over before a line feed goes up to it. -/
theorem lexeme_comment {words : List Char} (h : '\n' ∉ words) (after : List Char) :
    lexeme '#' (words ++ '\n' :: after) = (.skipped, words.length) := by
  have hall : ∀ c ∈ words, (c != '\n') = true := by
    rintro c hc
    rw [bne_iff_ne]
    rintro rfl
    exact h hc
  rw [lexeme, (takeWhile_append_of_head? (r := '\n' :: after) hall rfl).1]

/-- A comment has no tokens. -/
theorem tokensFrom_comment {words : List Char} (h : '\n' ∉ words) (after : List Char) (line : Nat) :
    tokensFrom line ('#' :: (words ++ '\n' :: after)) = tokensFrom line ('\n' :: after) := by
  have hcount : ('#' :: words).count '\n' = 0 := List.count_eq_zero.mpr (by simpa using h)
  rw [tokensFrom_skipped (lexeme_comment h after), List.take_left, List.drop_left, hcount]
  rfl

/-- Padding before the end of a line has no tokens. -/
theorem tokensFrom_padding {padding after : List Char} (h : IsPadding padding) (line : Nat) :
    tokensFrom line (padding ++ '\n' :: after) = tokensFrom line ('\n' :: after) := by
  obtain ⟨blanks, comment, rfl, hblanks, hcomment⟩ := h
  induction blanks with
  | nil =>
    obtain rfl | ⟨words, rfl, hwords⟩ := hcomment
    · rfl
    · exact tokensFrom_comment hwords after line
  | cons b blanks ih =>
    rw [List.forall_mem_cons] at hblanks
    have hcount : [b].count '\n' = 0 := by
      rw [List.count_eq_zero, List.mem_singleton]
      rintro rfl
      exact absurd hblanks.1 (by decide)
    rw [List.append_assoc, List.cons_append, tokensFrom_skipped (lexeme_of_isSpace hblanks.1)]
    rw [List.take_zero, List.drop_zero, hcount, ← List.append_assoc]
    exact ih hblanks.2

/-- A lexeme that is the same before two texts is followed by the same tokens before both if the
rest is. -/
theorem tokensFrom_append_congr {c : Char} {cs r r' : List Char} {kind : LexemeKind} {k : Nat}
    (h : lexeme c (cs ++ r) = (kind, k)) (h' : lexeme c (cs ++ r') = (kind, k)) (hk : k ≤ cs.length)
    (hrest : ∀ line, tokensFrom line (cs.drop k ++ r) = tokensFrom line (cs.drop k ++ r'))
    (line : Nat) : tokensFrom line (c :: cs ++ r) = tokensFrom line (c :: cs ++ r') := by
  rw [List.cons_append, List.cons_append, tokensFrom, tokensFrom, h, h']
  simp only [List.take_append_of_le_length hk, List.drop_append_of_le_length hk, hrest]

theorem IsOutside.first {place n : Nat} {c : Char} {cs : List Char} {kind : LexemeKind} {k : Nat}
    (h : IsOutside place (c :: cs) n) (hlexeme : lexeme c cs = (kind, k)) (hplace : place ≤ n)
    (hn : n < place + (c :: cs.take k).length) : (c == '\'' || c == '"' || c == '#') = false := by
  refine h ⟨place, kind, c :: cs.take k⟩ ?_ hplace hn
  rw [segmentsFrom_cons hlexeme]
  exact List.mem_cons_self

theorem IsOutside.rest {place n : Nat} {c : Char} {cs : List Char} {kind : LexemeKind} {k : Nat}
    (h : IsOutside place (c :: cs) n) (hlexeme : lexeme c cs = (kind, k)) :
    IsOutside (place + (c :: cs.take k).length) (cs.drop k) n := by
  refine fun s hs ↦ h s ?_
  rw [segmentsFrom_cons hlexeme]
  exact List.mem_cons_of_mem _ hs

/-- A quoted text before a line feed that is in none is closed. -/
theorem IsOutside.closed {place : Nat} {c : Char} {cs after : List Char}
    (h : IsOutside place (c :: (cs ++ '\n' :: after)) (place + (c :: cs).length))
    (hc : c = '\'' ∨ c = '"') : (quotedBody c cs).2 = true := by
  by_contra hopen
  have hnewline : c ≠ '\n' := by rcases hc with rfl | rfl <;> decide
  have hlexeme : ∀ text, lexeme c text = quotedLexeme c text := by
    rcases hc with rfl | rfl <;> exact fun text ↦ by rw [lexeme]
  have hlong := lt_length_quotedLexeme hnewline (Bool.not_eq_true _ ▸ hopen) after
  rcases hquoted : quotedLexeme c (cs ++ '\n' :: after) with ⟨kind, k⟩
  rw [hquoted] at hlong
  have hplain := h.first ((hlexeme _).trans hquoted) (Nat.le_add_right ..) (by
    simp only [List.length_cons, List.length_take, List.length_append]
    omega)
  rcases hc with rfl | rfl <;> cases hplain

/-- **Blanks and comments before a line feed** leave no trace in the tokens or their lines, if the
line feed is in no quoted text. -/
theorem tokensFrom_padded {place : Nat} {before padding after : List Char}
    (hpadding : IsPadding padding)
    (hout : IsOutside place (before ++ '\n' :: after) (place + before.length)) (line : Nat) :
    tokensFrom line (before ++ (padding ++ '\n' :: after)) =
      tokensFrom line (before ++ '\n' :: after) := by
  match before with
  | [] => exact tokensFrom_padding hpadding line
  | c :: cs =>
    -- on the number of characters before the line feed, lexeme by lexeme
    rw [List.cons_append] at hout
    by_cases hopen : c = '#' ∧ '\n' ∉ cs
    · -- the comment takes the padding in
      obtain ⟨rfl, hwords⟩ := hopen
      have hlonger : '\n' ∉ cs ++ padding := by
        rw [List.mem_append, not_or]
        exact ⟨hwords, hpadding.newline_notMem⟩
      have hcomment := tokensFrom_comment hlonger after line
      rw [List.append_assoc] at hcomment
      exact hcomment.trans (tokensFrom_comment hwords after line).symm
    have hcomment : c = '#' → '\n' ∈ cs := fun hc ↦ not_not.mp fun hwords ↦ hopen ⟨hc, hwords⟩
    have hquote : c = '\'' ∨ c = '"' → (quotedBody c cs).2 = true := hout.closed
    rcases hlexeme : lexeme c cs with ⟨kind, k⟩
    have hk : k ≤ cs.length := by
      have hlength := length_lexeme_le c cs
      rwa [hlexeme] at hlength
    have hwhole {rest : List Char} (hrest : BeginsStop rest) : lexeme c (cs ++ rest) = (kind, k) :=
      (lexeme_append hrest hquote hcomment).trans hlexeme
    have hbreak : lexeme c (cs ++ '\n' :: after) = (kind, k) := hwhole ⟨'\n', after, rfl, by decide⟩
    refine tokensFrom_append_congr (hwhole hpadding.beginsStop) hbreak hk (fun line' ↦ ?_) line
    have hrest := hout.rest hbreak
    have hplace : place + (c :: cs).length =
        place + (c :: (cs ++ '\n' :: after).take k).length + (cs.drop k).length := by
      simp only [List.length_cons, List.length_take, List.length_drop, List.length_append]
      omega
    rw [hplace, List.drop_append_of_le_length hk] at hrest
    exact tokensFrom_padded hpadding hrest line'
termination_by before.length

/-- Padding and comments at the ends of lines make no difference to the tokens. -/
theorem tokenize_padded {text padded : String} (h : Padded text padded) :
    tokenize padded = tokenize text := by
  obtain ⟨before, padding, after, htext, hpadded, hpadding, hout⟩ := h
  have hcount : padded.toList.count '\n' = text.toList.count '\n' := by
    rw [htext, hpadded, List.count_append, List.count_append, List.count_append,
      List.count_eq_zero.mpr hpadding.newline_notMem, Nat.zero_add]
  rw [tokenize_eq, tokenize_eq, hcount, hpadded, htext]
  rw [htext, ← Nat.zero_add before.length] at hout
  rw [tokensFrom_padded hpadding hout]

/-- **The lines of tokens.** The segments make up the text, each at its place. A token stands on the
line on which its segment begins, and the line break at the end of the text on the last; of the line
breaks, those are left that end a line. Texts that differ only in blanks and comments before line
feeds that are in no quoted text have the same tokens, on the same lines. -/
theorem tokenize_lines (text : String) :
    ((segmentsFrom 0 text.toList).flatMap (·.text) = text.toList ∧
      ∀ s ∈ segmentsFrom 0 text.toList, ∃ before after,
        text.toList = before ++ s.text ++ after ∧ s.place = before.length) ∧
    (∀ ts, tokenize text = .ok ts →
      ts = joined (placedTokens text.toList) ∧ ts.Pairwise (·.line ≤ ·.line) ∧ EndsLines ts) ∧
    ∀ other, Relation.EqvGen Padded text other → tokenize other = tokenize text := by
  refine ⟨⟨flatMap_segmentsFrom 0 _, fun s hs ↦ ?_⟩, fun ts ↦ tokenize_eq_ok, fun other h ↦ ?_⟩
  · obtain ⟨before, after, htext, hplace⟩ := exists_of_mem_segmentsFrom hs
    exact ⟨before, after, htext, hplace.trans (Nat.zero_add _)⟩
  induction h with
  | rel text other h => exact tokenize_padded h
  | refl text => rfl
  | symm text other _ ih => exact ih.symm
  | trans text middle other _ _ ih ih' => exact ih'.trans ih

/-- A quoted text of two lines, an empty line, and a semicolon where the line is broken already. A
comment after the quoted text and a tab in the empty line change nothing. -/
theorem tokenize_lines_multiline :
    (∃ ts, tokenize "a = 'b\nc'\n\n;d" = .ok ts ∧ ts.map (·.line) = [1, 1, 1, 2, 4, 4] ∧
      EndsLines ts) ∧
    tokenize "a = 'b\nc' # e\n\t\n;d" = tokenize "a = 'b\nc'\n\n;d" := by
  have hlines : (tokenize "a = 'b\nc'\n\n;d").toOption.map (·.map (·.line)) =
      some [1, 1, 1, 2, 4, 4] := by
    decide +kernel
  obtain ⟨-, htokens, hpadded⟩ := tokenize_lines "a = 'b\nc'\n\n;d"
  constructor
  · rcases h : tokenize "a = 'b\nc'\n\n;d" with e | ts
    · rw [h] at hlines
      cases hlines
    · rw [h] at hlines
      exact ⟨ts, rfl, Option.some.inj hlines, (htokens ts h).2.2⟩
  · refine hpadded _ (.trans _ "a = 'b\nc' # e\n\n;d" _ (.rel _ _ ?_) (.rel _ _ ?_))
    · refine ⟨"a = 'b\nc'".toList, " # e".toList, "\n;d".toList, rfl, rfl, ?_, ?_⟩
      · have hwords : '\n' ∉ " e".toList := by decide
        exact ⟨[' '], '#' :: " e".toList, rfl, List.forall_mem_singleton.mpr rfl,
          .inr ⟨_, rfl, hwords⟩⟩
      · show ∀ s ∈ segmentsFrom 0 _, _
        decide +kernel
    · refine ⟨"a = 'b\nc' # e\n".toList, "\t".toList, ";d".toList, rfl, rfl, ?_, ?_⟩
      · exact ⟨['\t'], [], rfl, List.forall_mem_singleton.mpr rfl, .inl rfl⟩
      · show ∀ s ∈ segmentsFrom 0 _, _
        decide +kernel

end StepSequencer.Script
