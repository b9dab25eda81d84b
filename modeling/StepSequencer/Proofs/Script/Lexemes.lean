import StepSequencer.Proofs.Script.Lexing

/-!
# Where lexemes end

A blank, a number sign and a line feed go on with no name, number or operator, so they end a lexeme
just as the end of the text does (`lexeme_append_of_stops`). Two kinds of lexemes take them in: a
quoted text goes on to its closing quote, and a comment to the end of its line. They are over where
those come before (`lexeme_append`).
-/

namespace StepSequencer.Script

/-- Whether the character is a blank. -/
def isSpace (c : Char) : Bool := c == ' ' || c == '\t' || c == '\r' || c == '\x0c'

/-- Whether the character is a blank, begins a comment or ends a line. -/
def isStop (c : Char) : Bool := isSpace c || c == '#' || c == '\n'

/-- The text begins with a blank, a comment or the end of a line. -/
def BeginsStop (rest : List Char) : Prop := ∃ c cs, rest = c :: cs ∧ isStop c = true

/-- A class of characters without the stops, one by one, is without any. -/
theorem not_of_isStop {p : Char → Bool} {c : Char}
    (hp : [' ', '\t', '\r', '\x0c', '#', '\n'].all (!p ·) = true) (h : isStop c = true) :
    p c = false := by
  have hmem : c ∈ [' ', '\t', '\r', '\x0c', '#', '\n'] := by
    simpa [isStop, isSpace, or_assoc] using h
  exact (Bool.not_eq_true' _).mp (List.all_eq_true.mp hp c hmem)

/-! ### Runs of characters before a stop -/

section Runs

variable {c : Char} {cs rest : List Char} {p : Char → Bool}

/-- A run of characters of a class without stops is the same before a stop as at the end. -/
theorem runs_append_of_stops (cs : List Char) (hrest : BeginsStop rest)
    (hp : [' ', '\t', '\r', '\x0c', '#', '\n'].all (!p ·) = true) :
    (cs ++ rest).takeWhile p = cs.takeWhile p ∧
      (cs ++ rest).dropWhile p = cs.dropWhile p ++ rest := by
  obtain ⟨as, bs, rfl, has, hbs⟩ := exists_span p cs
  have hends : (bs ++ rest).head?.all (!p ·) = true := by
    rcases bs with - | ⟨b, bs⟩
    · obtain ⟨s, rest, rfl, hs⟩ := hrest
      exact (Bool.not_eq_true' _).mpr (not_of_isStop hp hs)
    · exact hbs
  obtain ⟨htake, hdrop⟩ := takeWhile_append_of_head? has hbs
  obtain ⟨htake', hdrop'⟩ := takeWhile_append_of_head? has hends
  rw [List.append_assoc, htake, hdrop, htake', hdrop']
  exact ⟨rfl, rfl⟩

/-- A text begins with a character that is no stop before a stop only if it does by itself. -/
theorem append_ne_cons (hrest : BeginsStop rest) (hc : isStop c = false)
    (h : ∀ tail, cs = c :: tail → False) : ∀ tail, cs ++ rest = c :: tail → False := by
  intro tail heq
  rcases cs with - | ⟨d, cs⟩
  · obtain ⟨s, rest, rfl, hs⟩ := hrest
    obtain ⟨rfl, -⟩ := List.cons.inj heq
    rw [hs] at hc
    cases hc
  · obtain ⟨rfl, -⟩ := List.cons.inj heq
    exact h cs rfl

theorem length_takeWhile_le (p : Char → Bool) (cs : List Char) :
    (cs.takeWhile p).length ≤ cs.length :=
  (List.takeWhile_sublist p).length_le

end Runs

/-! ### Lexemes before a stop -/

section Stops

variable {c : Char} {cs rest : List Char}

theorem nameLexeme_append_of_stops (hrest : BeginsStop rest) :
    nameLexeme c (cs ++ rest) = nameLexeme c cs := by
  obtain ⟨htake, hdrop⟩ := runs_append_of_stops (p := continuesName) cs hrest (by decide)
  rw [nameLexeme.eq_def c cs, nameLexeme, htake, hdrop]
  dsimp only
  symm
  split
  · next heq => simp only [heq, List.cons_append]
  · next heq => simp only [heq, List.cons_append]
  · next hmark hcolon =>
    have hmark := append_ne_cons hrest (c := '?') (by decide) hmark
    have hcolon := append_ne_cons hrest (c := ':') (by decide) hcolon
    -- the two facts rule out the first cases of the match
    simp only

theorem symbolLexeme_append_of_stops (hrest : BeginsStop rest) :
    symbolLexeme (cs ++ rest) = symbolLexeme cs := by
  obtain ⟨htake, hdrop⟩ := runs_append_of_stops (p := continuesName) cs hrest (by decide)
  have hhead : (cs ++ rest).head?.any startsName = cs.head?.any startsName := by
    rcases cs with - | ⟨d, cs⟩
    · obtain ⟨s, rest, rfl, hs⟩ := hrest
      exact not_of_isStop (p := startsName) (by decide) hs
    · rfl
  rw [symbolLexeme.eq_def cs, symbolLexeme, hhead, htake, hdrop]
  symm
  split
  · split
    · next heq => simp only [heq, List.cons_append]
    · next hmark =>
      have hmark := append_ne_cons hrest (c := '?') (by decide) hmark
      simp only
  · rfl

theorem numberLexeme_append_of_stops (hrest : BeginsStop rest) :
    numberLexeme c (cs ++ rest) = numberLexeme c cs := by
  obtain ⟨htake, hdrop⟩ := runs_append_of_stops (p := continuesNumber) cs hrest (by decide)
  rw [numberLexeme.eq_def c cs, numberLexeme, htake, hdrop]
  symm
  dsimp only
  generalize cs.dropWhile continuesNumber = ds
  split
  · next tail =>
    have hfraction := (runs_append_of_stops (p := Char.isDigit) tail hrest (by decide)).1
    simp only [List.cons_append, hfraction]
  · next hpoint =>
    have hpoint := append_ne_cons hrest (c := '.') (by decide) hpoint
    simp only

/-- **A lexeme before a stop** is the same as at the end of a text, unless it is a quoted text or a
comment. -/
theorem lexeme_append_of_stops (hrest : BeginsStop rest) (hc : c ≠ '\'' ∧ c ≠ '"' ∧ c ≠ '#') :
    lexeme c (cs ++ rest) = lexeme c cs := by
  obtain ⟨hsingle, hdouble, hcomment⟩ := hc
  rw [lexeme.eq_def c cs]
  split
  case h_5 => exact absurd rfl hcomment
  case h_31 => rw [lexeme, symbolLexeme_append_of_stops hrest]
  case h_32 => exact absurd rfl hsingle
  case h_33 => exact absurd rfl hdouble
  case h_34 hampersand _ =>
    by_cases hname : startsName c = true
    · rw [if_pos hname, lexeme_of_startsName hname, nameLexeme_append_of_stops hrest]
    by_cases hdigit : c.isDigit = true
    · rw [if_neg hname, if_pos hdigit, lexeme_of_isDigit hdigit, numberLexeme_append_of_stops hrest]
    rw [if_neg hname, if_neg hdigit, lexeme.eq_34, if_neg hname, if_neg hdigit]
    case neg.x_20 =>
      intro tail hc
      exact append_ne_cons hrest (by decide) (hampersand · hc) tail
    all_goals solve_by_elim
  -- the signs with a longer spelling, and those spellings
  case h_23 | h_26 | h_27 | h_28 | h_29 | h_30 =>
    rw [lexeme]
    exact append_ne_cons hrest (by decide) ‹_›
  case h_14 | h_15 | h_16 | h_17 | h_18 | h_19 | h_20 => rw [List.cons_append, lexeme]
  all_goals rw [lexeme]

end Stops

/-! ### Quoted texts -/

section Quotes

variable {q c : Char} {cs body : List Char}

theorem ne_backslash (hlast : c = '\\' → cs = [] → False)
    (hescape : ∀ d ds, c = '\\' → cs = d :: ds → False) : c ≠ '\\' := by
  rintro rfl
  rcases cs with - | ⟨d, ds⟩
  · exact hlast rfl rfl
  · exact hescape d ds rfl rfl

theorem quotedBody_cons (hc : c ≠ '\\') : quotedBody q (c :: cs) =
    if c = q then ([], true) else (c :: (quotedBody q cs).1, (quotedBody q cs).2) :=
  quotedBody.eq_4 q c cs (fun h _ ↦ hc h) fun _ _ h _ ↦ hc h

/-- A quoted text that is closed goes on no further, whatever comes next. -/
theorem quotedBody_append (h : quotedBody q cs = (body, true)) (rest : List Char) :
    quotedBody q (cs ++ rest) = (body, true) := by
  fun_induction quotedBody q cs generalizing body with
  | case1 => cases h
  | case2 => cases h
  | case3 c cs ds closed hds ih =>
    obtain ⟨rfl, rfl⟩ := Prod.mk.inj h
    rw [List.cons_append, List.cons_append, quotedBody, ih hds]
  | case4 cs hlast hescape =>
    rw [List.cons_append, quotedBody_cons (ne_backslash hlast hescape), if_pos rfl, h]
  | case5 c cs hlast hescape hquote ds closed hds ih =>
    obtain ⟨rfl, rfl⟩ := Prod.mk.inj h
    rw [List.cons_append, quotedBody_cons (ne_backslash hlast hescape), if_neg hquote, ih hds]

theorem length_quotedBody_le (q : Char) (cs : List Char) :
    (quotedBody q cs).1.length ≤ cs.length := by
  fun_induction quotedBody q cs with
  | case1 => exact Nat.zero_le _
  | case2 => exact Nat.zero_le _
  | case3 c cs ds closed hds ih =>
    rw [hds] at ih
    exact Nat.succ_le_succ (Nat.succ_le_succ ih)
  | case4 => exact Nat.zero_le _
  | case5 c cs hlast hescape hquote ds closed hds ih =>
    rw [hds] at ih
    exact Nat.succ_le_succ ih

/-- A closing quote comes after the body. -/
theorem length_quotedBody_lt (h : (quotedBody q cs).2 = true) :
    (quotedBody q cs).1.length < cs.length := by
  fun_induction quotedBody q cs with
  | case1 => cases h
  | case2 => cases h
  | case3 c cs ds closed hds ih =>
    rw [hds] at ih
    exact Nat.succ_lt_succ (Nat.succ_lt_succ (ih h))
  | case4 => exact Nat.zero_lt_succ _
  | case5 c cs hlast hescape hquote ds closed hds ih =>
    rw [hds] at ih
    exact Nat.succ_lt_succ (ih h)

/-- A quoted text that is not closed takes in the next line feed. -/
theorem lt_length_quotedBody (hq : q ≠ '\n') (h : (quotedBody q cs).2 = false)
    (after : List Char) : cs.length < (quotedBody q (cs ++ '\n' :: after)).1.length := by
  fun_induction quotedBody q cs with
  | case1 =>
    rw [List.nil_append, quotedBody_cons (by decide), if_neg hq.symm]
    exact Nat.zero_lt_succ _
  | case2 => exact Nat.succ_lt_succ (Nat.zero_lt_succ _)
  | case3 c cs ds closed hds ih =>
    rw [hds] at ih
    exact Nat.succ_lt_succ (Nat.succ_lt_succ (ih h))
  | case4 => cases h
  | case5 c cs hlast hescape hquote ds closed hds ih =>
    rw [hds] at ih
    rw [List.cons_append, quotedBody_cons (ne_backslash hlast hescape), if_neg hquote]
    exact Nat.succ_lt_succ (ih h)

end Quotes

/-! ### Whole lexemes -/

section Whole

variable {c : Char} {cs rest : List Char}

theorem quotedLexeme_append (h : (quotedBody c cs).2 = true) (rest : List Char) :
    quotedLexeme c (cs ++ rest) = quotedLexeme c cs := by
  have hbody : quotedBody c cs = ((quotedBody c cs).1, true) := Prod.ext rfl h
  rw [quotedLexeme, quotedLexeme, quotedBody_append hbody rest, ← hbody]

/-- **A whole lexeme** is the same before a stop as at the end of a text: a quoted text if it is
closed, a comment if its line ends. -/
theorem lexeme_append (hrest : BeginsStop rest)
    (hquote : c = '\'' ∨ c = '"' → (quotedBody c cs).2 = true) (hcomment : c = '#' → '\n' ∈ cs) :
    lexeme c (cs ++ rest) = lexeme c cs := by
  by_cases hcomment' : c = '#'
  · subst hcomment'
    rw [lexeme, lexeme, List.takeWhile_append, if_neg]
    intro hlength
    have hmem := hcomment rfl
    rw [← (List.takeWhile_prefix _).eq_of_length hlength] at hmem
    exact absurd (List.all_eq_true.mp List.all_takeWhile '\n' hmem) (by decide)
  by_cases hsingle : c = '\''
  · subst hsingle
    rw [lexeme, lexeme, quotedLexeme_append (hquote (.inl rfl))]
  by_cases hdouble : c = '"'
  · subst hdouble
    rw [lexeme, lexeme, quotedLexeme_append (hquote (.inr rfl))]
  exact lexeme_append_of_stops hrest ⟨hsingle, hdouble, hcomment'⟩

end Whole

/-! ### Lengths -/

section Lengths

variable {c : Char} {cs rest : List Char}

/-- The run and the character it stops at are in the text. -/
theorem length_takeWhile_lt {p : Char → Bool} {d : Char} {ds : List Char}
    (h : cs.dropWhile p = d :: ds) : (cs.takeWhile p).length + 1 + ds.length = cs.length := by
  have hlength := congrArg List.length (List.takeWhile_append_dropWhile (p := p) (l := cs))
  rw [h, List.length_append, List.length_cons] at hlength
  omega

theorem length_nameLexeme_le (c : Char) (cs : List Char) : (nameLexeme c cs).2 ≤ cs.length := by
  have hrun := length_takeWhile_le continuesName cs
  rw [nameLexeme]
  split
  · next h =>
    have hmark := length_takeWhile_lt h
    simp only [List.length_cons]
    omega
  · next h =>
    have hcolon := length_takeWhile_lt h
    simp only [List.length_cons]
    omega
  · exact hrun

theorem length_symbolLexeme_le (cs : List Char) : (symbolLexeme cs).2 ≤ cs.length := by
  have hrun := length_takeWhile_le continuesName cs
  rw [symbolLexeme]
  split
  · dsimp only
    split
    · next h =>
      have hmark := length_takeWhile_lt h
      dsimp only
      omega
    · exact hrun
  · exact Nat.zero_le _

theorem length_numberLexeme_le (c : Char) (cs : List Char) : (numberLexeme c cs).2 ≤ cs.length := by
  have hrun := length_takeWhile_le continuesNumber cs
  rw [numberLexeme]
  dsimp only
  split
  · next h =>
    have hpoint := length_takeWhile_lt h
    split
    · split <;> exact hrun
    · have hfraction := length_takeWhile_le Char.isDigit ‹_›
      simp only [List.length_cons]
      omega
  · split <;> exact hrun

theorem length_quotedLexeme_le (q : Char) (cs : List Char) : (quotedLexeme q cs).2 ≤ cs.length := by
  rw [quotedLexeme]
  split
  · next h =>
    have hclosed : (quotedBody q cs).1.length < cs.length := length_quotedBody_lt (by rw [h])
    rw [h] at hclosed
    exact hclosed
  · next h =>
    have hopen := length_quotedBody_le q cs
    rw [h] at hopen
    exact hopen

/-- The lexeme of a quoted text that is not closed goes on over the next line feed. -/
theorem lt_length_quotedLexeme {q : Char} (hq : q ≠ '\n') (h : (quotedBody q cs).2 = false)
    (after : List Char) : cs.length < (quotedLexeme q (cs ++ '\n' :: after)).2 := by
  have hbody := lt_length_quotedBody hq h after
  rw [quotedLexeme]
  split
  · next heq =>
    rw [heq] at hbody
    exact Nat.lt_succ_of_lt hbody
  · next heq =>
    rw [heq] at hbody
    exact hbody

/-- A lexeme is in the text it begins. -/
theorem length_lexeme_le (c : Char) (cs : List Char) : (lexeme c cs).2 ≤ cs.length := by
  rw [lexeme.eq_def]
  split
  case h_5 => exact length_takeWhile_le _ _
  case h_31 => exact length_symbolLexeme_le _
  case h_32 | h_33 => exact length_quotedLexeme_le _ _
  case h_34 =>
    split
    · exact length_nameLexeme_le _ _
    · split
      · exact length_numberLexeme_le _ _
      · exact Nat.zero_le _
  case h_14 | h_15 | h_16 | h_17 | h_18 | h_19 | h_20 => exact Nat.succ_le_succ (Nat.zero_le _)
  all_goals exact Nat.zero_le _

end Lengths

end StepSequencer.Script
