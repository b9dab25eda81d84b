import Mathlib.Data.List.Induction
import StepSequencer.Proofs.Script.WrittenScript

/-!
# Names of functions in a script

Each slot's rule is written as a function, and its sample line calls the function by name. Where the
name of a slot is taken by a slot before it, the slot gets a numbered name, and that name is not
checked again. Numbered names differ from each other (`numberedName_inj`), so only the usual name of an
earlier slot can be in the way.

A name is called as what stands before its parenthesis, unless it is a keyword or an operator.
`hasOwnGuards_iff` says for which tracks every sample line calls the function of its own slot.
-/

namespace StepSequencer.Script

/-! ### Usual and numbered names -/

/-- The name of a slot where it is not taken. -/
def usualName (s : Slot) : String := if isFunctionName s.label then s.label else generatedLabel s

/-- The name of a slot whose usual name is taken. -/
def numberedName (position : Nat) (s : Slot) : String :=
  generatedLabel s ++ "_" ++ toString position

variable {taken : List String} {position : Nat} {s : Slot} {slots : List Slot}

theorem functionName_of_mem (h : usualName s ∈ taken) :
    functionName taken position s = numberedName position s := if_pos (List.contains_iff_mem.mpr h)

theorem functionName_of_not_mem (h : usualName s ∉ taken) :
    functionName taken position s = usualName s := if_neg (mt List.contains_iff_mem.mp h)

/-- A text before its last underscore and what follows that. -/
theorem append_underscore_inj {as bs us vs : List Char} (hus : '_' ∉ us) (hvs : '_' ∉ vs)
    (h : as ++ '_' :: us = bs ++ '_' :: vs) : us = vs := by
  have hsplit (as us : List Char) (hus : '_' ∉ us) :
      ((as ++ '_' :: us).reverse.takeWhile (· != '_')).reverse = us := by
    have hall : ∀ c ∈ us.reverse, (c != '_') = true := fun c hc ↦
      bne_iff_ne.mpr fun heq ↦ hus (heq ▸ List.mem_reverse.mp hc)
    have htake := takeWhile_append_of_head? (r := '_' :: as.reverse) hall rfl
    rw [List.reverse_append, List.reverse_cons, List.append_assoc, List.singleton_append, htake.1,
      List.reverse_reverse]
  rw [← hsplit as us hus, h, hsplit bs vs hvs]

theorem numberedName_toList (position : Nat) (s : Slot) : (numberedName position s).toList =
    (generatedLabel s).toList ++ '_' :: Nat.toDigits 10 position := by
  rw [numberedName, String.toList_append, String.toList_append, List.append_assoc]
  exact congrArg _ (congrArg _ Nat.toList_repr)

/-- **Numbered names** differ at different positions. -/
theorem numberedName_inj {i j : Nat} {s s' : Slot} (h : numberedName i s = numberedName j s') :
    i = j := by
  have hdigits (n : Nat) : '_' ∉ Nat.toDigits 10 n := fun hmem ↦ by
    cases isDigit_of_mem_toDigits hmem
  have htext := congrArg String.toList h
  rw [numberedName_toList, numberedName_toList] at htext
  have hsame := congrArg readDigits (append_underscore_inj (hdigits i) (hdigits j) htext)
  rwa [readDigits_toDigits, readDigits_toDigits] at hsame

/-! ### Names that are taken -/

/-- The names of slots, the first of which comes first in the track. -/
def namesOf (slots : List Slot) : List String := functionNamesFrom [] 0 slots

theorem functionNamesFrom_concat (taken : List String) (position : Nat) (slots : List Slot) (s : Slot) :
    functionNamesFrom taken position (slots ++ [s]) = functionNamesFrom taken position slots ++
      [functionName ((functionNamesFrom taken position slots).reverse ++ taken)
        (position + slots.length) s] := by
  induction slots generalizing taken position with
  | nil => rfl
  | cons first slots ih =>
    rw [List.cons_append, functionNamesFrom, ih, functionNamesFrom, List.reverse_cons,
      List.append_assoc, List.singleton_append, List.length_cons, Nat.add_right_comm, Nat.add_assoc,
      List.cons_append]

/-- The last slot's name. -/
theorem namesOf_concat (slots : List Slot) (s : Slot) :
    namesOf (slots ++ [s]) =
      namesOf slots ++ [functionName (namesOf slots).reverse slots.length s] := by
  rw [namesOf, functionNamesFrom_concat, List.append_nil, Nat.zero_add]
  rfl

theorem length_namesOf (slots : List Slot) : (namesOf slots).length = slots.length := by
  induction slots using List.reverseRecOn with
  | nil => rfl
  | append_singleton slots s ih => rw [namesOf_concat, List.length_append, List.length_append, ih]; rfl

/-- A name is the usual one of its slot, or a numbered one. -/
theorem of_mem_namesOf {name : String} (h : name ∈ namesOf slots) :
    (∃ s ∈ slots, name = usualName s) ∨ ∃ i < slots.length, ∃ s, name = numberedName i s := by
  induction slots using List.reverseRecOn with
  | nil => cases h
  | append_singleton slots last ih =>
    rw [namesOf_concat, List.mem_append, List.mem_singleton] at h
    rcases h with h | rfl
    · rcases ih h with ⟨s, hs, hname⟩ | ⟨i, hi, s, hname⟩
      · exact .inl ⟨s, List.mem_append_left _ hs, hname⟩
      · exact .inr ⟨i, by rw [List.length_append]; omega, s, hname⟩
    · by_cases htaken : usualName last ∈ (namesOf slots).reverse
      · refine .inr ⟨slots.length, by simp, last, functionName_of_mem htaken⟩
      · exact .inl ⟨last, by simp, functionName_of_not_mem htaken⟩

/-- The usual name of each slot is taken, if not by the slot then by one before it. -/
theorem usualName_mem_namesOf (hs : s ∈ slots) : usualName s ∈ namesOf slots := by
  induction slots using List.reverseRecOn with
  | nil => cases hs
  | append_singleton slots last ih =>
    rw [namesOf_concat, List.mem_append]
    rcases List.mem_append.mp hs with hs | hs
    · exact .inl (ih hs)
    · obtain rfl := List.mem_singleton.mp hs
      by_cases htaken : usualName s ∈ (namesOf slots).reverse
      · exact .inl (List.mem_reverse.mp htaken)
      · exact .inr (List.mem_singleton.mpr (functionName_of_not_mem htaken).symm)

/-- A numbered name past all slots is taken only as a usual name. -/
theorem numberedName_mem_namesOf (s : Slot) :
    numberedName slots.length s ∈ namesOf slots ↔
      ∃ s' ∈ slots, usualName s' = numberedName slots.length s := by
  constructor
  · intro h
    rcases of_mem_namesOf h with ⟨s', hs', hname⟩ | ⟨i, hi, s', hname⟩
    · exact ⟨s', hs', hname.symm⟩
    · exact absurd (numberedName_inj hname) (Nat.ne_of_gt hi)
  · rintro ⟨s', hs', hname⟩
    exact hname ▸ usualName_mem_namesOf hs'

/-! ### Distinct names -/

/-- Wherever the usual name of a slot is taken, its numbered name is not the usual name of a slot
before it. -/
def NumberedApart (slots : List Slot) : Prop :=
  ∀ before s, before ++ [s] <+: slots → usualName s ∈ namesOf before →
    ∀ s' ∈ before, usualName s' ≠ numberedName before.length s

theorem numberedApart_concat : NumberedApart (slots ++ [s]) ↔ NumberedApart slots ∧
    (usualName s ∈ namesOf slots → ∀ s' ∈ slots, usualName s' ≠ numberedName slots.length s) := by
  constructor
  · intro h
    exact ⟨fun before s' hbegins ↦ h before s' (hbegins.trans (List.prefix_append _ _)),
      h slots s List.prefix_rfl⟩
  · rintro ⟨hslots, hlast⟩ before s' hbegins
    rcases List.prefix_concat_iff.mp hbegins with heq | hbegins
    · obtain ⟨rfl, hsame⟩ := List.append_inj' heq rfl
      obtain rfl := List.singleton_inj.mp hsame
      exact hlast
    · exact hslots before s' hbegins

/-- **The names are distinct** exactly if no numbered name meets an earlier usual one. -/
theorem nodup_namesOf_iff : (namesOf slots).Nodup ↔ NumberedApart slots := by
  induction slots using List.reverseRecOn with
  | nil => exact ⟨fun _ before s hbegins ↦ by simp at hbegins, fun _ ↦ List.nodup_nil⟩
  | append_singleton slots s ih =>
    have hlast : functionName (namesOf slots).reverse slots.length s ∉ namesOf slots ↔
        (usualName s ∈ namesOf slots →
          ∀ s' ∈ slots, usualName s' ≠ numberedName slots.length s) := by
      by_cases htaken : usualName s ∈ namesOf slots
      · rw [functionName_of_mem (List.mem_reverse.mpr htaken), numberedName_mem_namesOf]
        simp [htaken]
      · rw [functionName_of_not_mem (mt List.mem_reverse.mp htaken)]
        simp [htaken]
    rw [namesOf_concat, (List.perm_append_singleton _ _).nodup_iff, List.nodup_cons, hlast, ih,
      numberedApart_concat, and_comm]

/-! ### Names that are called -/

/-- The text is a line that is read as the expression. -/
def IsReadAs (text : String) (e : Expr) : Prop :=
  ∃ ts rest, tokenize text = .ok ts ∧ view (expression 1 ts) = .ok (e, rest) ∧
    rest.map (·.tok) = [.newline]

theorem isReadAs_of_spells {text : String} {toks : List Tok} {e : Expr} (h : Spells levels toks e)
    (hlexes : Lexes text.toList toks []) : IsReadAs text e := by
  obtain ⟨ts, htoks, htokens⟩ := hlexes 1
  have hne : ts ≠ [] := by
    obtain ⟨_, _, hstarts, -⟩ := h.startsExpr
    rintro rfl
    cases htoks.trans hstarts
  have hunbroken : ∀ t ∈ ts, t.tok.isNewline = false := fun t ht ↦
    h.unbroken t.tok (htoks ▸ List.mem_map_of_mem ht)
  refine ⟨ts ++ [⟨1 + text.toList.count '\n', .newline⟩], _, ?_, h.parsed htoks rfl, rfl⟩
  have htext : tokensFrom 1 text.toList = .ok ts := by
    rw [← List.append_nil text.toList, htokens, tokensFrom]
    exact congrArg Except.ok (List.append_nil ts)
  rw [tokenize, htext]
  exact congrArg Except.ok (joinBreaks_append hne hunbroken)

/-- The words that name no function where they are called. -/
def reserved : List String := "not" :: keywords

/-- Whether a text of one line begins with a call. -/
def beginsWithCall (text : String) : Bool :=
  match (tokenize text).toOption.bind fun ts ↦ (view (expression 1 ts)).toOption with
  | some (.call .., _) => true
  | _ => false

theorem beginsWithCall_of_isReadAs {text name : String} {args : List Expr}
    (h : IsReadAs text (.call name args)) : beginsWithCall text = true := by
  obtain ⟨ts, rest, htokens, hread, -⟩ := h
  rw [beginsWithCall, htokens]
  show (match (view (expression 1 ts)).toOption with
    | some (.call .., _) => true
    | _ => false) = true
  rw [hread]
  rfl

theorem not_beginsWithCall_reserved :
    ∀ name ∈ reserved, beginsWithCall (name ++ "(idx)") = false := by
  decide +kernel

/-- **A name is called** exactly if it is not reserved. -/
theorem isReadAs_call_iff {name : String} (hname : isName name = true) :
    IsReadAs (name ++ "(idx)") (.call name [.var "idx"]) ↔ name ∉ reserved := by
  constructor
  · intro h hreserved
    have hcall := beginsWithCall_of_isReadAs h
    rw [not_beginsWithCall_reserved name hreserved] at hcall
    cases hcall
  · intro h
    rw [reserved, List.mem_cons, not_or] at h
    obtain ⟨toks, hspells, hlexes⟩ := call_written hname h.2 h.1
    refine isReadAs_of_spells hspells ?_
    rw [String.toList_append]
    exact hlexes []

/-! ### Function names -/

theorem isFunctionName_of_mem_reserved : ∀ name ∈ reserved, isFunctionName name = true := by decide

/-- A generated label goes on after a fixed text. -/
theorem sleep_prefix_generatedLabel (s : Slot) : "sleep_".toList <+: (generatedLabel s).toList := by
  have hfolder : "sleep_".toList <+: (Slot.folderLabel s.id).toList := by
    rw [Slot.folderLabel, String.toList_append]
    exact (by decide : "sleep_".toList <+: "sleep_sample_".toList).trans (List.prefix_append _ _)
  unfold generatedLabel
  split
  · split
    · rw [Slot.bundledLabel, String.toList_append]
      exact List.prefix_append _ _
    · exact hfolder
  · exact hfolder

theorem not_mem_reserved_of_prefix {name : String} (h : "sleep_".toList <+: name.toList) :
    name ∉ reserved := by
  have hnone : ∀ word ∈ reserved, ¬"sleep_".toList <+: word.toList := by decide
  exact fun hmem ↦ hnone name hmem h

/-- A text that goes on with letters, digits and underscores still names a function. -/
theorem isFunctionName_append {a b : String} (ha : isFunctionName a = true)
    (hb : ∀ c ∈ b.toList, (c.isAlphanum || c == '_') = true) : isFunctionName (a ++ b) = true := by
  rcases hchars : a.toList with - | ⟨c, cs⟩
  · rw [isFunctionName, hchars] at ha
    cases ha
  · rw [isFunctionName, hchars, Bool.and_eq_true] at ha
    rw [isFunctionName, String.toList_append, hchars, List.cons_append, Bool.and_eq_true,
      List.all_append, Bool.and_eq_true]
    exact ⟨ha.1, ha.2, List.all_eq_true.mpr hb⟩

theorem isFunctionName_append_nat {a : String} (ha : isFunctionName a = true) (n : Nat) :
    isFunctionName (a ++ toString n) = true := by
  refine isFunctionName_append ha fun c hc ↦ ?_
  have hdigit : c.isDigit = true := isDigit_of_mem_toDigits (Nat.toList_repr ▸ hc)
  rw [Char.isAlphanum, hdigit, Bool.or_true, Bool.true_or]

theorem isFunctionName_generatedLabel (s : Slot) : isFunctionName (generatedLabel s) = true := by
  have hfolder : isFunctionName (Slot.folderLabel s.id) = true :=
    isFunctionName_append_nat (by decide) _
  unfold generatedLabel
  split
  · next name _ =>
    split
    · next hname =>
      refine isFunctionName_append (by decide) fun c hc ↦ ?_
      obtain ⟨d, ds, htext, hstarts, hall⟩ := isName_iff.mp (isName_of_isFunctionName hname)
      rw [htext] at hc
      rcases List.mem_cons.mp hc with rfl | hc
      · exact continuesName_of_startsName hstarts
      · exact hall c hc
    · exact hfolder
  · exact hfolder

theorem isFunctionName_usualName (s : Slot) : isFunctionName (usualName s) = true := by
  unfold usualName
  split
  · assumption
  · exact isFunctionName_generatedLabel s

theorem isFunctionName_of_mem {name : String} (h : name ∈ namesOf slots) :
    isFunctionName name = true := by
  rcases of_mem_namesOf h with ⟨s, -, rfl⟩ | ⟨i, -, s, rfl⟩
  · exact isFunctionName_usualName s
  · refine isFunctionName_append_nat (isFunctionName_append (isFunctionName_generatedLabel s) ?_) i
    exact List.forall_mem_singleton.mpr rfl

/-- **The names are not reserved** exactly if no label is. -/
theorem names_not_reserved_iff :
    (∀ name ∈ namesOf slots, name ∉ reserved) ↔ ∀ s ∈ slots, s.label ∉ reserved := by
  constructor
  · intro h s hs hreserved
    have husual : usualName s = s.label := if_pos (isFunctionName_of_mem_reserved _ hreserved)
    exact h s.label (husual ▸ usualName_mem_namesOf hs) hreserved
  · intro h name hname
    rcases of_mem_namesOf hname with ⟨s, hs, rfl⟩ | ⟨i, -, s, rfl⟩
    · unfold usualName
      split
      · exact h s hs
      · exact not_mem_reserved_of_prefix (sleep_prefix_generatedLabel s)
    · refine not_mem_reserved_of_prefix ((sleep_prefix_generatedLabel s).trans ?_)
      rw [numberedName_toList]
      exact List.prefix_append _ _

/-! ### Sample lines and their functions -/

/-- Each sample line calls the function of its own slot: there is a name for each slot, what stands
after the line's `if` is a call of that name with the current step, and no other slot's function has
the name. -/
structure HasOwnGuards (t : Track) : Prop where
  named : (functionNames t).length = t.slots.length
  distinct : (functionNames t).Nodup
  called : ∀ name ∈ functionNames t, IsReadAs (name ++ "(idx)") (.call name [.var "idx"])
  own : ∀ (i j : Nat) (name : String) (s s' : Slot),
    (t.slots.zip (functionNames t))[i]? = some (s, name) →
    (t.slots.zip (functionNames t))[j]? = some (s', name) → i = j

theorem HasOwnGuards.of_nodup {t : Track} (hdistinct : (functionNames t).Nodup)
    (hcalled : ∀ name ∈ functionNames t, IsReadAs (name ++ "(idx)") (.call name [.var "idx"])) :
    HasOwnGuards t := by
  refine ⟨length_namesOf t.slots, hdistinct, hcalled, fun i j name s s' hi hj ↦ ?_⟩
  have hi' := (List.getElem?_zip_eq_some.mp hi).2
  have hj' := (List.getElem?_zip_eq_some.mp hj).2
  obtain ⟨hlt, -⟩ := List.getElem?_eq_some_iff.mp hi'
  exact (List.getElem?_inj hlt hdistinct).mp (hi'.trans hj'.symm)

/-- **The names of a track's functions** are distinct and can be called exactly if no numbered name
is the usual name of an earlier slot, and no label is a reserved word. -/
theorem hasOwnGuards_iff (t : Track) :
    HasOwnGuards t ↔ NumberedApart t.slots ∧ ∀ s ∈ t.slots, s.label ∉ reserved := by
  have hcalled : (∀ name ∈ functionNames t, IsReadAs (name ++ "(idx)") (.call name [.var "idx"])) ↔
      ∀ s ∈ t.slots, s.label ∉ reserved := by
    rw [← names_not_reserved_iff]
    exact forall₂_congr fun name hname ↦
      isReadAs_call_iff (isName_of_isFunctionName (isFunctionName_of_mem hname))
  rw [← hcalled, ← nodup_namesOf_iff]
  exact ⟨fun h ↦ ⟨h.distinct, h.called⟩, fun ⟨hdistinct, hcalled⟩ ↦ .of_nodup hdistinct hcalled⟩

/-- Two slots with one label, the second of which gets the label of the slot before both. -/
def repeating : Track where
  name := "loop"
  samplesDir := "kit"
  bpm := 60
  stepCount := 4
  beatsPerStep := 1
  slots := [⟨0, .folder, "sleep_sample_1_2", .always, .standard⟩, ⟨3, .folder, "a", .always, .standard⟩,
    ⟨1, .folder, "a", .test (.equals 0) (.answer .true) (.answer .false), .standard⟩]

/-- A slot whose label is an operator. -/
def negating : Track :=
  { repeating with slots := [⟨0, .folder, "not", .always, .standard⟩] }

/-- **Names that are not distinct, and one that is not called.** -/
theorem not_hasOwnGuards :
    (functionNames repeating = ["sleep_sample_1_2", "a", "sleep_sample_1_2"] ∧
      ¬HasOwnGuards repeating) ∧
    (functionNames negating = ["not"] ∧ ¬HasOwnGuards negating) := by
  have hrepeating : functionNames repeating = ["sleep_sample_1_2", "a", "sleep_sample_1_2"] := by
    decide +kernel
  have hnegating : functionNames negating = ["not"] := by decide +kernel
  refine ⟨⟨hrepeating, fun h ↦ ?_⟩, hnegating, fun h ↦ ?_⟩
  · have hdistinct := h.distinct
    rw [hrepeating] at hdistinct
    exact absurd hdistinct (by decide)
  · have hcalled := h.called "not" (hnegating ▸ List.mem_singleton_self _)
    have hcall := beginsWithCall_of_isReadAs hcalled
    rw [not_beginsWithCall_reserved "not" List.mem_cons_self] at hcall
    cases hcall

end StepSequencer.Script
