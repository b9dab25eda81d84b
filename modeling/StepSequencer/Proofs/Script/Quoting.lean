import StepSequencer.Proofs.Script.Lexing
import StepSequencer.Script.Writer

/-!
# A quoted text is read back

The first line of a written script names the folder of the samples, as a text between single quotes.
Whatever characters the name has, the lexer reads it back and ends the line where it ends, so that it
reads what follows as it would by itself.

* `unescape_escaped` and `quotedBody_escaped`: the backslashes that are written keep a quote from
  closing the text, and are taken away again. A backslash of the name itself is written twice, so it
  never reaches the character after it.
* `tokensFrom_add`: the line on which a text starts shows in the lines of its tokens and of its
  error, and in nothing else.
-/

namespace StepSequencer.Script

/-! ### Quoted texts -/

theorem quotedBody_escaped (cs rest : List Char) :
    quotedBody '\'' (escaped cs ++ '\'' :: rest) = (escaped cs, true) := by
  induction cs with
  | nil => rfl
  | cons c cs ih =>
    rw [escaped]
    split
    · show quotedBody '\'' ('\\' :: c :: (escaped cs ++ '\'' :: rest)) = _
      rw [quotedBody, ih]
    · next hc =>
      rw [not_or] at hc
      rw [List.cons_append, quotedBody.eq_4, ih, if_neg hc.2]
      · exact fun heq _ ↦ hc.1 heq
      · exact fun _ _ heq _ ↦ hc.1 heq

theorem unescape_escaped (cs : List Char) : unescape '\'' (escaped cs) = cs := by
  induction cs with
  | nil => rfl
  | cons c cs ih =>
    rw [escaped]
    split
    · next hc =>
      rw [unescape, ih, if_pos]
      simpa using hc
    · next hc =>
      rw [not_or] at hc
      rw [unescape, ih]
      exact fun _ _ heq _ ↦ hc.1 heq

/-- A text between quotes is one lexeme, whatever follows it. -/
theorem lexeme_quoted (cs rest : List Char) : lexeme '\'' (escaped cs ++ '\'' :: rest) =
    (.token (.str (String.ofList cs)), (escaped cs).length + 1) := by
  show quotedLexeme '\'' _ = _
  rw [quotedLexeme, quotedBody_escaped]
  dsimp only
  rw [unescape_escaped]

/-- A quoted text. -/
theorem lexes_quoted (cs rest : List Char) :
    Lexes ('\'' :: (escaped cs ++ ['\''])) [.str (String.ofList cs)] rest := by
  refine Lexes.token ?_
  rw [List.append_assoc, List.singleton_append, lexeme_quoted, List.length_append]
  rfl

/-! ### Writing in two steps -/

/-- The text with other characters in place of each occurrence of one. -/
def replaced (c : Char) (others : List Char) (cs : List Char) : List Char :=
  cs.flatMap fun d ↦ if d = c then others else [d]

theorem replaced_cons (c : Char) (others : List Char) (d : Char) (ds : List Char) :
    replaced c others (d :: ds) = (if d = c then others else [d]) ++ replaced c others ds :=
  List.flatMap_cons

/-- Doubling the backslashes first and then marking the quotes is the same as doing both at once:
the first step writes no quote that was not there. -/
theorem escaped_eq_replaced (cs : List Char) :
    escaped cs = replaced '\'' ['\\', '\''] (replaced '\\' ['\\', '\\'] cs) := by
  induction cs with
  | nil => rfl
  | cons c cs ih =>
    rw [replaced_cons, replaced, List.flatMap_append, ← replaced, ← replaced, ← ih, escaped]
    by_cases hbackslash : c = '\\'
    · subst hbackslash
      rfl
    · by_cases hquote : c = '\''
      · subst hquote
        rfl
      · rw [if_neg (not_or.mpr ⟨hbackslash, hquote⟩), if_neg hbackslash, replaced_cons, if_neg hquote]
        rfl

/-! ### Where a text starts -/

/-- The token a number of lines further down. -/
def Token.later (k : Nat) (t : Token) : Token := { t with line := t.line + k }

/-- The error a number of lines further down. -/
def LexError.later (k : Nat) : LexError → LexError
  | .unexpected line text => .unexpected (line + k) text
  | .numberTooLarge line text => .numberTooLarge (line + k) text

/-- The tokens, or the error, a number of lines further down. -/
def linesLater (k : Nat) (result : Except LexError (List Token)) : Except LexError (List Token) :=
  (result.map (List.map (Token.later k))).mapError (LexError.later k)

theorem linesLater_map (k : Nat) (t : Token) (result : Except LexError (List Token)) :
    linesLater k (result.map (t :: ·)) = (linesLater k result).map (t.later k :: ·) := by
  cases result <;> rfl

/-- The lines count on from wherever a text starts. -/
theorem tokensFrom_add (line k : Nat) (cs : List Char) :
    tokensFrom (line + k) cs = linesLater k (tokensFrom line cs) := by
  fun_induction tokensFrom line cs with
  | case1 line => rw [tokensFrom]; rfl
  | case2 line c cs length text next hlexeme ih =>
    rw [tokensFrom_skipped hlexeme, Nat.add_right_comm]
    exact ih
  | case3 line c cs length text next tok hlexeme ih =>
    rw [tokensFrom_token hlexeme, Nat.add_right_comm]
    show (tokensFrom (next + k) (cs.drop length)).map (Token.later k ⟨line, tok⟩ :: ·) = _
    rw [ih, ← linesLater_map]
    cases tokensFrom next (cs.drop length) <;> rfl
  | case4 line c cs length text hlexeme => rw [tokensFrom, hlexeme]; rfl
  | case5 line c cs length text hlexeme => rw [tokensFrom, hlexeme]; rfl

theorem joinBreaks_later (k : Nat) (broken : Bool) (ts : List Token) :
    joinBreaks broken (ts.map (Token.later k)) = (joinBreaks broken ts).map (Token.later k) := by
  induction ts generalizing broken with
  | nil => rfl
  | cons t ts ih =>
    rw [List.map_cons, joinBreaks, joinBreaks]
    show (if t.tok.isNewline then _ else _) = _
    cases t.tok.isNewline with
    | false => exact congrArg (t.later k :: ·) (ih false)
    | true =>
      cases broken with
      | false => exact congrArg (t.later k :: ·) (ih true)
      | true => exact ih true

theorem count_escaped (cs : List Char) : (escaped cs).count '\n' = cs.count '\n' := by
  induction cs with
  | nil => rfl
  | cons c cs ih =>
    rw [escaped]
    split
    · rw [List.count_cons_of_ne (by decide), List.count_cons, List.count_cons, ih]
    · rw [List.count_cons, List.count_cons, ih]

/-- A text between quotes is read as one token, and what follows from the line on which the text
ends. -/
theorem tokensFrom_quoted (line : Nat) (cs rest : List Char) :
    tokensFrom line ('\'' :: (escaped cs ++ '\'' :: rest)) =
      (tokensFrom (line + cs.count '\n') rest).map (⟨line, .str (String.ofList cs)⟩ :: ·) := by
  have hlength : (escaped cs ++ ['\'']).length = (escaped cs).length + 1 := List.length_append
  have hcount : ('\'' :: (escaped cs ++ ['\''])).count '\n' = cs.count '\n' := by
    rw [List.count_cons_of_ne (by decide), List.count_append, count_escaped]
    rfl
  rw [tokensFrom_token (lexeme_quoted cs rest), List.append_cons (escaped cs), ← hlength,
    List.take_left, List.drop_left, hcount]

/-! ### The line of the folder -/

/-- The first line of a written script. -/
def folderLine (dir : String) : String := lineText 0 ("samps = '" ++ quoteText dir ++ "'")

/-- The number of lines in a text that ends with the line of the folder. -/
def folderLines (dir : String) : Nat := dir.toList.count '\n' + 1

/-- The tokens of that line: a line break within the name makes the line end further down. -/
def folderTokens (dir : String) : List Token :=
  [⟨1, .ident "samps"⟩, ⟨1, .sign .assign⟩, ⟨1, .str dir⟩, ⟨folderLines dir, .newline⟩]

theorem folderLine_toList (dir text : String) : (folderLine dir ++ text).toList =
    "samps = ".toList ++ '\'' :: (escaped dir.toList ++ '\'' :: '\n' :: text.toList) := by
  simp only [folderLine, lineText, quoteText, String.toList_append, String.toList_ofList,
    List.append_assoc]
  rfl

theorem count_folderLine (dir text : String) :
    (folderLine dir ++ text).toList.count '\n' = folderLines dir + text.toList.count '\n' := by
  have hname : "samps = ".toList.count '\n' = 0 := by decide
  rw [folderLine_toList, List.count_append, hname, List.count_cons_of_ne (by decide),
    List.count_append, count_escaped, List.count_cons_of_ne (by decide), List.count_cons_self,
    folderLines]
  omega

/-- A script starts with the line of its folder. -/
theorem scriptText_folderLine (t : Track) (functions : List String) :
    ∃ rest, scriptText t functions = folderLine t.samplesDir ++ rest := by
  simp only [scriptText, String.append_assoc]
  exact ⟨_, rfl⟩

/-- The line is read token by token, and the text after it from its own line on. -/
theorem tokensFrom_folderLine (dir text : String) :
    tokensFrom 1 (folderLine dir ++ text).toList =
      (tokensFrom (1 + folderLines dir) text.toList).map (folderTokens dir ++ ·) := by
  rw [folderLine_toList]
  generalize hquoted : '\'' :: (escaped dir.toList ++ '\'' :: '\n' :: text.toList) = quoted
  have hname : tokensFrom 1 ("samps = ".toList ++ quoted) =
      (tokensFrom 1 (" = ".toList ++ quoted)).map (⟨1, .ident "samps"⟩ :: ·) :=
    tokensFrom_token (k := 4) rfl 1
  have hassign : tokensFrom 1 (" = ".toList ++ quoted) =
      (tokensFrom 1 (" ".toList ++ quoted)).map (⟨1, .sign .assign⟩ :: ·) :=
    (tokensFrom_skipped (k := 0) rfl 1).trans (tokensFrom_token (k := 0) rfl 1)
  have hblank : tokensFrom 1 (" ".toList ++ quoted) = tokensFrom 1 quoted :=
    tokensFrom_skipped (k := 0) rfl 1
  have hstr : tokensFrom 1 quoted =
      (tokensFrom (folderLines dir) ('\n' :: text.toList)).map (⟨1, .str dir⟩ :: ·) := by
    rw [← hquoted, tokensFrom_quoted, String.ofList_toList, Nat.add_comm, folderLines]
  have hbreak : tokensFrom (folderLines dir) ('\n' :: text.toList) =
      (tokensFrom (1 + folderLines dir) text.toList).map (⟨folderLines dir, .newline⟩ :: ·) := by
    rw [Nat.add_comm]
    exact tokensFrom_token (k := 0) rfl _
  rw [hname, hassign, hblank, hstr, hbreak]
  cases tokensFrom (1 + folderLines dir) text.toList <;> rfl

theorem tokenize_eq (text : String) : tokenize text = (tokensFrom 1 text.toList).map fun ts ↦
    joinBreaks true (ts ++ [⟨1 + text.toList.count '\n', .newline⟩]) := by
  rw [tokenize]
  cases tokensFrom 1 text.toList <;> rfl

/-- The line is read by itself, and so is what follows it. -/
theorem tokenize_folderLine_append (dir text : String) :
    tokenize (folderLine dir ++ text) =
      (linesLater (folderLines dir) (tokenize text)).map (folderTokens dir ++ ·) := by
  have hend : (⟨1 + (folderLines dir + text.toList.count '\n'), .newline⟩ : Token) =
      Token.later (folderLines dir) ⟨1 + text.toList.count '\n', .newline⟩ := by
    rw [Token.later, Nat.add_comm (folderLines dir), ← Nat.add_assoc]
  rw [tokenize_eq, tokenize_eq, tokensFrom_folderLine, tokensFrom_add, count_folderLine, hend]
  cases tokensFrom 1 text.toList with
  | error e => rfl
  | ok ts =>
    show Except.ok (joinBreaks true (folderTokens dir ++ ts.map (Token.later (folderLines dir)) ++
      [Token.later (folderLines dir) ⟨_, .newline⟩])) = _
    rw [List.append_assoc, ← List.map_singleton, ← List.map_append]
    show Except.ok (folderTokens dir ++ joinBreaks true (List.map _ _)) = _
    rw [joinBreaks_later]
    rfl

/-- **A quoted text** is read back, whatever its characters are: its line has the four tokens that it
should have, and what follows is read as it is by itself, further down. -/
theorem tokenize_folderLine (dir text : String) :
    tokenize (folderLine dir) = .ok (folderTokens dir) ∧
    tokenize (folderLine dir ++ text) =
      (linesLater (folderLines dir) (tokenize text)).map (folderTokens dir ++ ·) ∧
    (quoteText dir).toList =
      replaced '\'' ['\\', '\''] (replaced '\\' ['\\', '\\'] dir.toList) ∧
    ∀ t : Track, ∃ rest, render { t with samplesDir := dir } = folderLine dir ++ rest := by
  refine ⟨?_, tokenize_folderLine_append dir text, ?_, fun t ↦ ?_⟩
  · have hempty := tokenize_folderLine_append dir ""
    rw [String.append_empty] at hempty
    exact hempty.trans (by rw [tokenize_eq, String.toList_empty, tokensFrom]; rfl)
  · rw [quoteText, String.toList_ofList, escaped_eq_replaced]
  · exact scriptText_folderLine _ _

end StepSequencer.Script
