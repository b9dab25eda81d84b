import StepSequencer.Proofs.Number.Shortest
import StepSequencer.Proofs.Script.Layout
import StepSequencer.Proofs.Script.Legibility
import StepSequencer.Proofs.Script.SampleLines

/-!
# Any rule and any settings, written

A rule without the least word is written as call-free statements (`IsWrittenRule`), and the settings of
a track as statements that define no function and open no loop (`IsAside`), as long as words hold the
whole numbers among them (`Binary.FitsWord`).
-/

namespace StepSequencer

/-- No number is the least word. -/
def Rule.AvoidsLeast : Rule → Prop
  | .answer (.sentinel value) => value ≠ Int64.minValue
  | .answer _ => True
  | .test condition taken otherwise =>
    condition.AvoidsLeast ∧ taken.AvoidsLeast ∧ otherwise.AvoidsLeast
  | .rebase shift rule => shift ≠ Int64.minValue ∧ rule.AvoidsLeast

namespace Script

/-! ### Rules -/

/-- The statements are call-free, and without floats they are the rule's own. -/
structure IsWrittenRule (r : Rule) (body : List Stmt) : Prop where
  callFree : Body.IsCallFree body
  exact : r.floats = [] → r.IsExact ∧ RuleBody r body

/-- **A rule** is written as call-free statements. -/
theorem legible_rule (depth : Nat) {r : Rule} (h : r.AvoidsLeast) :
    WrittenLines (ruleText depth r).toList (IsWrittenRule r) := by
  induction r generalizing depth with
  | answer outcome =>
    have hexact : (Rule.answer outcome).IsExact := by cases outcome <;> exact h
    refine (return_written depth (outcome_written hexact)).mono ?_
    rintro _ ⟨line, rfl⟩
    refine ⟨.answer ?_, fun _ ↦ ⟨hexact, line, rfl⟩⟩
    cases outcome with
    | sentinel value => exact isCallFree_word value
    | _ => trivial
  | test condition taken otherwise iht iho =>
    obtain ⟨e, he⟩ := legible_condition condition h.1
    have hcondition := he.written.mono fun _ hspells ↦ hspells.loosen comparisonLevels_suffix
    refine (cond_written depth hcondition (iht (depth + 1) h.2.1) (iho (depth + 1) h.2.2)).mono ?_
    rintro _ ⟨line, s, t, rfl, hs, ht⟩
    refine ⟨.test he.callFree hs.callFree ht.callFree, fun hfloats ↦ ?_⟩
    -- without floats each part is written exactly
    obtain ⟨hfirst, hrules⟩ := List.append_eq_nil_iff.mp hfloats
    obtain ⟨htaken, hotherwise⟩ := List.append_eq_nil_iff.mp hrules
    obtain ⟨hexact, rfl⟩ := he.exact hfirst
    obtain ⟨hsexact, hs⟩ := hs.exact htaken
    obtain ⟨htexact, ht⟩ := ht.exact hotherwise
    exact ⟨⟨hexact, hsexact, htexact⟩, line, s, t, rfl, hs, ht⟩
  | rebase shift rule ih =>
    have hshift := (shifted_written (Word.neg_ne_minValue h.1)).mono
      fun _ hspells ↦ hspells.unary.spells levels
    rw [ruleText, String.toList_append]
    refine ((assign_written depth hshift).append (ih depth h.2)).mono ?_
    rintro _ ⟨_, rest, rfl, ⟨line, rfl⟩, hrest⟩
    refine ⟨.rebase hrest.callFree, fun hfloats ↦ ?_⟩
    obtain ⟨hexact, hbody⟩ := hrest.exact hfloats
    exact ⟨⟨h.1, hexact⟩, line, rest, rfl, hbody⟩

/-! ### Settings -/

/-- The text is one token that can be an argument. -/
def IsNumeral (text : List Char) : Prop :=
  ∃ tok e, SpellsPrimary [tok] e ∧ startsArgument tok = true ∧ Written text (· = [tok])

theorem isNumeral_of_isNumber {digits : List Char} {tok : Tok} (h : IsNumber digits tok) :
    IsNumeral digits := by
  obtain ⟨x, hx⟩ := Option.isSome_iff_exists.mp (by obtain ⟨_, _, _, _, h⟩ := h; exact h)
  obtain ⟨e, hspells, hstarts, -⟩ := number_spells hx
  exact ⟨tok, e, hspells, hstarts, isNumber_written h⟩

/-- A word holds the digits of a whole number exactly if it fits. -/
theorem holds_positional_iff {d : Decimal} (h : 0 ≤ d.exponent) :
    Word.Holds (readDigits (NumberLayout.positional false d).toList) ↔ d.FitsWord := by
  rw [NumberLayout.readDigits_positional h, Word.Holds, Decimal.FitsWord]
  generalize d.digits * 10 ^ d.exponent.toNat = n
  constructor
  · rintro ⟨-, hn⟩ -
    omega
  · intro hn
    have := hn h
    omega

theorem isNumeral_positional {d : Decimal} (h : d.FitsWord) :
    IsNumeral (NumberLayout.positional false d).toList := by
  by_cases hexponent : 0 ≤ d.exponent
  · have hdigits := (NumberLayout.isWhole_positional hexponent).toIsDigits
    obtain ⟨w, -, hw⟩ := Word.ofInt?_of_holds ((holds_positional_iff hexponent).mpr h)
    exact isNumeral_of_isNumber (isNumber_whole hdigits.nonempty hdigits.digits hw)
  · obtain ⟨whole, fraction, hwhole, hfraction, htext⟩ := NumberLayout.exists_positional d
    rw [← NumberLayout.positional_of_neg hexponent, htext]
    exact isNumeral_of_isNumber (isNumber_point hwhole.toIsDigits hfraction)

theorem isNumeral_name (name : String) (h : isName name = true) (hkeyword : name ∉ keywords)
    (hnot : name ≠ "not") (hstarts : startsArgument (.ident name) = true) : IsNumeral name.toList :=
  ⟨.ident name, .var name, .var hkeyword hnot, hstarts, [.ident name], rfl,
    fun _ hrest ↦ lexes_name h (endsName_of_ends hrest)⟩

/-- The text of a 32-bit float, perhaps without its minus. -/
theorem exists_numeral {v : Float32} (h : (Binary.ofSingle v).FitsWord) : ∃ text, IsNumeral text ∧
    ((NumberLayout.plain.single v).toList = text ∨
      (NumberLayout.plain.single v).toList = '-' :: text) := by
  have hinf := isNumeral_name "inf" rfl (by decide) (by decide) rfl
  rw [NumberLayout.single]
  rcases hv : Binary.ofSingle v with - | (- | -) | ⟨negative, mantissa, exponent⟩
  · exact ⟨_, isNumeral_name "NaN" rfl (by decide) (by decide) rfl, .inl rfl⟩
  · exact ⟨_, hinf, .inl rfl⟩
  · exact ⟨_, hinf, .inr rfl⟩
  · refine ⟨_, isNumeral_positional ((Decimal.fitsWord_shortest_iff hv).mpr (hv ▸ h)), ?_⟩
    rw [NumberLayout.binary, NumberLayout.plain_decimal, String.toList_append]
    cases negative with
    | false => exact .inl rfl
    | true => exact .inr rfl

/-- The statement defines no function and opens no loop. -/
def IsAside (s : Stmt) : Prop := LiveLoop.of? s = none ∧ ∀ name, definitionOf? name s = none

/-- A tempo with a minus is a difference. -/
theorem difference_written {text : String} {tok : Tok} {e : Expr} (hspells : SpellsPrimary [tok] e)
    (h : Written text.toList (· = [.sign .minus, tok])) :
    WrittenLines (lineText 0 ("use_bpm " ++ text)).toList fun ss ↦
      ∃ s, ss = [s] ∧ ∃ line, s = .expr line (.binary (.arith .sub) (.var "use_bpm") e) := by
  have hword (rest) : Lexes "use_bpm ".toList [.ident "use_bpm"] rest := .of_lexemes (n := 2) rfl
  have hname : SpellsPrimary [.ident "use_bpm"] (.var "use_bpm") := .var (by decide) (by decide)
  have hwhole : Spells levels [.ident "use_bpm", .sign .minus, tok]
      (.binary (.arith .sub) (.var "use_bpm") e) :=
    spells_binary (.arith .sub) (.primary hname) (.primary hspells)
  have hline : Written ("use_bpm " ++ text).toList fun toks ↦ StatementReads toks (fun s ↦
      ∃ line, s = .expr line (.binary (.arith .sub) (.var "use_bpm") e)) ∧ Unbroken toks := by
    rw [String.toList_append]
    refine (h.after hword).mono ?_
    rintro _ ⟨_, rfl, rfl⟩
    refine ⟨(simpleReads_whole hwhole rfl ?_).statement, hwhole.unbroken⟩
    rintro _ ⟨⟩
    exact ⟨by simp, rfl⟩
  exact hline.line 0

theorem legible_tempo {v : Float32} (h : (Binary.ofSingle v).FitsWord) :
    WrittenLines (lineText 0 ("use_bpm " ++ NumberLayout.plain.single v)).toList
      (∀ s ∈ ·, IsAside s) := by
  obtain ⟨text, ⟨tok, e, hspells, hstarts, hwritten⟩, htext | htext⟩ := exists_numeral h
  · have hargument : Written (NumberLayout.plain.single v).toList fun toks ↦
        Spells levels toks e ∧ toks.head?.any startsArgument = true := by
      rw [htext]
      refine hwritten.mono ?_
      rintro _ rfl
      exact ⟨hspells.unary.spells levels, hstarts⟩
    refine (tempo_written hargument).mono ?_
    rintro _ ⟨_, rfl, line, rfl⟩
    exact List.forall_mem_singleton.mpr ⟨rfl, fun _ ↦ rfl⟩
  · have hminus (rest) : Lexes ['-'] [.sign .minus] rest := .of_lexemes (n := 1) rfl
    have hnegative : Written (NumberLayout.plain.single v).toList (· = [.sign .minus, tok]) := by
      rw [htext]
      refine (hwritten.after hminus).mono ?_
      rintro _ ⟨_, rfl, rfl⟩
      rfl
    refine (difference_written hspells hnegative).mono ?_
    rintro _ ⟨_, rfl, line, rfl⟩
    exact List.forall_mem_singleton.mpr ⟨rfl, fun _ ↦ rfl⟩

theorem legible_stepTime {v : Float32} (h : (Binary.ofSingle v).FitsWord) :
    WrittenLines (lineText 0 ("set :downbeat_time, " ++ NumberLayout.plain.single v)).toList
      (∀ s ∈ ·, IsAside s) := by
  have haside {e : Expr} (he : Written (NumberLayout.plain.single v).toList (SpellsUnary · e)) :
      WrittenLines (lineText 0 ("set :downbeat_time, " ++ NumberLayout.plain.single v)).toList
        (∀ s ∈ ·, IsAside s) := by
    refine (stepTime_written he).mono ?_
    rintro _ ⟨_, rfl, line, rfl⟩
    exact List.forall_mem_singleton.mpr ⟨rfl, fun _ ↦ rfl⟩
  obtain ⟨text, ⟨tok, e, hspells, -, hwritten⟩, htext⟩ := exists_numeral h
  have hoperand : Written text (SpellsUnary · e) := hwritten.mono fun _ htoks ↦ htoks ▸ hspells.unary
  rcases htext with htext | htext
  · exact haside (htext ▸ hoperand)
  · exact haside (htext ▸ hoperand.neg)

/-- **The settings** of a track define no function and open no loop. -/
theorem legible_settings {t : Track} (hbpm : (Binary.ofSingle t.bpm).FitsWord)
    (hbeats : (Binary.ofSingle t.beatsPerStep).FitsWord) :
    WrittenLines (settingsText t).toList (∀ s ∈ ·, IsAside s) := by
  have hsettings := ((((samplesDir_written t.samplesDir).append (legible_tempo hbpm)).append
    (stepCount_written t.stepCount.toNat_lt)).append (legible_stepTime hbeats))
  rw [settingsText, String.toList_append, String.toList_append, String.toList_append]
  refine hsettings.mono ?_
  rintro _ ⟨_, beats, rfl, ⟨_, _, rfl, ⟨_, bpm, rfl, ⟨_, rfl, l₁, rfl⟩, hbpm⟩, _, rfl, l₂, rfl⟩,
    hbeats⟩
  have haside (line : Nat) (name : String) (e : Expr) : IsAside (.assign line name e) :=
    ⟨rfl, fun _ ↦ rfl⟩
  simp only [List.forall_mem_append, List.forall_mem_singleton]
  exact ⟨⟨⟨haside _ _ _, hbpm⟩, haside _ _ _⟩, hbeats⟩

end Script

end StepSequencer
