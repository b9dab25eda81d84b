import Mathlib.Data.List.DropRight
import StepSequencer.Proofs.Json.Numerals

/-!
# Values written and read

`Spelling v cs` says that a text spells a value, with any blanks around items and members. The reader
takes a spelling as a whole (`value_append`), so the value is the one that the text is
(`parse_of_spelling`).

A value is `Writable` if its numbers are numerals and its texts are texts. Both written forms of such
a value spell it (`Writable.compact`, `Writable.pretty`).
-/

namespace StepSequencer

namespace JsonReader

variable {cs rest : List Char}

/-! ### Quoted texts -/

/-- A digit is read as the number that it shows. -/
theorem hexDigit?_digitChar {n : Nat} (h : n < 16) : hexDigit? n.digitChar = some n :=
  (by decide : ∀ n : Fin 16, hexDigit? n.val.digitChar = some n.val) ⟨n, h⟩

/-- The piece is read as the character, whatever comes after it. -/
def Piece.Means (p : Piece) (c : Char) : Prop :=
  ∀ ps, joinPieces (p :: ps) = (joinPieces ps).map (c :: ·)

theorem Piece.means_char (c : Char) : (Piece.char c).Means c := fun ps ↦ by rw [joinPieces]

/-- The unit of a control character is not half of a surrogate pair. -/
theorem Piece.means_unit {c : Char} (h : c.toNat < 0x20) : (Piece.unit c.toNat).Means c := by
  intro ps
  have hhigh : isHigh c.toNat = false := by simp [isHigh]; omega
  have hlow : isLow c.toNat = false := by simp [isLow]; omega
  rw [joinPieces.eq_def]
  split
  case h_3 n m ps heq =>
    obtain ⟨hn, rfl⟩ := List.cons.inj heq
    obtain rfl := Piece.unit.inj hn
    rw [hhigh, hlow, Char.ofNat_toNat]
    rfl
  case h_4 n ps hps heq =>
    obtain ⟨hn, rfl⟩ := List.cons.inj heq
    obtain rfl := Piece.unit.inj hn
    rw [hhigh, hlow, Char.ofNat_toNat]
    rfl
  all_goals next heq => cases heq

variable {e c : Char} {ps : List Piece}

/-- A character with a short escape is read as itself. -/
theorem pieces_short (he : shortEscape? e = some c) (h : pieces cs = some (ps, rest)) :
    pieces ('\\' :: e :: cs) = some (.char c :: ps, rest) := by
  rw [pieces]
  · rw [he, h]
    rfl
  · rintro a b c d r rfl
    cases he

/-- Any character but a quote, a backslash or a control character stands for itself. -/
theorem pieces_plain (hlow : ¬c.toNat < 0x20) (hquote : c ≠ '"') (hback : c ≠ '\\')
    (h : pieces cs = some (ps, rest)) : pieces (c :: cs) = some (.char c :: ps, rest) := by
  rw [pieces, h]
  · simp [hlow, hback]
  · exact hquote
  · exact fun a b c d r heq _ ↦ hback heq
  · exact fun a r heq _ ↦ hback heq

/-- A written character is read as one piece, which means that character. -/
theorem exists_piece (c : Char) : ∃ p : Piece, p.Means c ∧ ∀ cs ps rest,
    pieces cs = some (ps, rest) → pieces (JsonValue.escape c ++ cs) = some (p :: ps, rest) := by
  rw [JsonValue.escape.eq_def]
  split
  case h_8 hquote hback h8 hc hn hr ht =>
    split
    · next hlow =>
      refine ⟨.unit c.toNat, Piece.means_unit hlow, fun cs ps rest h ↦ ?_⟩
      have hhigh := hexDigit?_digitChar (show c.toNat / 16 < 16 by omega)
      have hdigit := hexDigit?_digitChar (show c.toNat % 16 < 16 by omega)
      have hvalue : ((0 * 16 + 0) * 16 + c.toNat / 16) * 16 + c.toNat % 16 = c.toNat := by omega
      simp only [List.cons_append, List.nil_append, pieces, hhigh, hdigit, h]
      exact congrArg (fun n ↦ some (.unit n :: ps, rest)) hvalue
    · next hlow =>
      exact ⟨.char c, Piece.means_char c, fun cs ps rest ↦ pieces_plain hlow hquote hback⟩
  all_goals exact ⟨.char _, Piece.means_char _, fun cs ps rest ↦ pieces_short rfl⟩

/-- **A quoted text** is read as the text. -/
theorem text_quote (s : String) :
    text (s.toList.flatMap JsonValue.escape ++ '"' :: rest) = some (some s, rest) := by
  have hpieces : ∀ cs : List Char, ∃ ps, joinPieces ps = some cs ∧
      pieces (cs.flatMap JsonValue.escape ++ '"' :: rest) = some (ps, rest) := by
    intro cs
    induction cs with
    | nil => exact ⟨[], rfl, rfl⟩
    | cons c cs ih =>
      obtain ⟨ps, hjoin, hps⟩ := ih
      obtain ⟨p, hmeans, hp⟩ := exists_piece c
      refine ⟨p :: ps, by rw [hmeans, hjoin]; rfl, ?_⟩
      rw [List.flatMap_cons, List.append_assoc]
      exact hp _ _ _ hps
  obtain ⟨ps, hjoin, hps⟩ := hpieces s.toList
  rw [text, hps, Option.map_some]
  dsimp only
  rw [hjoin, Option.map_some, String.ofList_toList]

/-! ### Spellings -/

/-- The text consists of blanks. -/
def IsBlanks (cs : List Char) : Prop := ∀ c ∈ cs, isBlank c = true

mutual

/-- The text spells the value. -/
inductive Spelling : JsonValue → List Char → Prop where
  | null : Spelling .null "null".toList
  | bool (value : Bool) : Spelling (.bool value) (toString value).toList
  | number {literal : String} (h : Numeral literal.toList) :
      Spelling (.number literal) literal.toList
  | string (s : String) : Spelling (.string (some s)) (JsonValue.quote s)
  | noItems : Spelling (.array []) ['[', ']']
  | items {vs : List JsonValue} {cs : List Char} (h : ItemsSpelling vs cs) :
      Spelling (.array vs) ('[' :: cs)
  | noMembers : Spelling (.object []) ['\x7b', '\x7d']
  | members {ms : List (Option String × JsonValue)} {cs : List Char} (h : MembersSpelling ms cs) :
      Spelling (.object ms) ('\x7b' :: cs)

/-- The text spells one item or more, and the bracket that closes them. -/
inductive ItemsSpelling : List JsonValue → List Char → Prop where
  | last {v : JsonValue} {before cs after : List Char} (hbefore : IsBlanks before)
      (h : Spelling v cs) (hafter : IsBlanks after) :
      ItemsSpelling [v] (before ++ (cs ++ (after ++ [']'])))
  | more {v : JsonValue} {vs : List JsonValue} {before cs ds : List Char} (hbefore : IsBlanks before)
      (h : Spelling v cs) (hrest : ItemsSpelling vs ds) :
      ItemsSpelling (v :: vs) (before ++ (cs ++ ',' :: ds))

/-- The text spells one member or more, and the brace that closes them. -/
inductive MembersSpelling : List (Option String × JsonValue) → List Char → Prop where
  | last {key : String} {v : JsonValue} {before gap cs after : List Char} (hbefore : IsBlanks before)
      (hgap : IsBlanks gap) (h : Spelling v cs) (hafter : IsBlanks after) :
      MembersSpelling [(some key, v)]
        (before ++ (JsonValue.quote key ++ ':' :: (gap ++ (cs ++ (after ++ ['\x7d'])))))
  | more {key : String} {v : JsonValue} {ms : List (Option String × JsonValue)}
      {before gap cs ds : List Char} (hbefore : IsBlanks before) (hgap : IsBlanks gap)
      (h : Spelling v cs) (hrest : MembersSpelling ms ds) :
      MembersSpelling ((some key, v) :: ms)
        (before ++ (JsonValue.quote key ++ ':' :: (gap ++ (cs ++ ',' :: ds))))

end

/-! ### Reading a spelling -/

/-- Blanks before anything make no difference once blanks are skipped. -/
theorem skipBlanks_append {before : List Char} (h : IsBlanks before) :
    skipBlanks (before ++ cs) = skipBlanks cs := by
  rw [skipBlanks, List.dropWhile_append_of_pos h, skipBlanks]

theorem skipBlanks_skipBlanks : skipBlanks (skipBlanks cs) = skipBlanks cs :=
  List.dropWhile_idempotent isBlank cs

theorem skipBlanks_cons {c : Char} (h : isBlank c = false) : skipBlanks (c :: cs) = c :: cs :=
  List.dropWhile_cons_of_neg (by rw [h]; decide)

/-- Blanks before a value do not matter. -/
theorem value_skipBlanks (fuel : Nat) : value fuel (skipBlanks cs) = value fuel cs := by
  cases fuel with
  | zero => rw [value, value]
  | succ fuel =>
    rw [value.eq_def, value.eq_def (fuel + 1) cs]
    dsimp only
    rw [skipBlanks_skipBlanks]

/-- Blanks before items make no difference. -/
theorem items_skipBlanks (fuel : Nat) : items fuel (skipBlanks cs) = items fuel cs := by
  cases fuel with
  | zero => rw [items, items]
  | succ fuel =>
    rw [items.eq_def, items.eq_def (fuel + 1) cs]
    dsimp only
    rw [value_skipBlanks]

/-- Blanks before members make no difference. -/
theorem members_skipBlanks (fuel : Nat) : members fuel (skipBlanks cs) = members fuel cs := by
  cases fuel with
  | zero => rw [members, members]
  | succ fuel =>
    rw [members.eq_def, members.eq_def (fuel + 1) cs]
    dsimp only
    rw [skipBlanks_skipBlanks]

/-- Blanks before a value make no difference. -/
theorem value_blanks {before : List Char} (h : IsBlanks before) (fuel : Nat) :
    value fuel (before ++ cs) = value fuel cs := by
  rw [← value_skipBlanks, skipBlanks_append h, value_skipBlanks]

theorem quote_append (s : String) :
    JsonValue.quote s ++ cs = '"' :: (s.toList.flatMap JsonValue.escape ++ '"' :: cs) := by
  simp [JsonValue.quote]

/-- A numeral begins with a digit or a minus sign. -/
theorem Numeral.exists_cons (h : Numeral cs) :
    ∃ c ds, cs = c :: ds ∧ (c.isDigit = true ∨ c = '-') := by
  cases h with
  | unsigned h =>
    obtain ⟨c, ds, rfl, hc⟩ := h.exists_cons
    exact ⟨c, ds, rfl, .inl hc⟩
  | @negative ds h => exact ⟨'-', ds, rfl, .inr rfl⟩

theorem not_isBlank_of_numeral {c : Char} (h : c.isDigit = true ∨ c = '-') : isBlank c = false := by
  rcases h with h | rfl
  · by_contra hblank
    simp only [isBlank, Bool.not_eq_false, Bool.or_eq_true, beq_iff_eq] at hblank
    rcases hblank with ((rfl | rfl) | rfl) | rfl <;> cases h
  · rfl

/-- A numeral is read up to where none of its characters goes on with it. -/
theorem value_numeral (fuel : Nat) (h : Numeral cs) (hrest : endsNumeral rest = true) :
    value (fuel + 1) (cs ++ rest) = some (.number (String.ofList cs), rest) := by
  have hread := number_append h hrest
  obtain ⟨c, ds, rfl, hc⟩ := h.exists_cons
  rw [List.cons_append] at hread ⊢
  rw [value.eq_def]
  dsimp only
  rw [skipBlanks_cons (not_isBlank_of_numeral hc)]
  split
  case h_7 =>
    rw [hread]
    rfl
  all_goals
    next heq =>
    obtain ⟨rfl, -⟩ := List.cons.inj heq
    rcases hc with hc | hc <;> cases hc

/-- A spelling begins with a character that is neither a blank nor a closing bracket. -/
theorem Spelling.exists_cons {v : JsonValue} (h : Spelling v cs) :
    ∃ c ds, cs = c :: ds ∧ isBlank c = false ∧ c ≠ ']' := by
  cases h with
  | null => exact ⟨_, _, rfl, by decide⟩
  | bool value => cases value <;> exact ⟨_, _, rfl, by decide⟩
  | number h =>
    obtain ⟨c, ds, hcs, hc⟩ := h.exists_cons
    refine ⟨c, ds, hcs, not_isBlank_of_numeral hc, ?_⟩
    rintro rfl
    rcases hc with hc | hc <;> cases hc
  | string s => exact ⟨_, _, rfl, by decide⟩
  | noItems | items h | noMembers | members h => exact ⟨_, _, rfl, by decide⟩

/-- Items do not begin with the closing bracket. -/
theorem ItemsSpelling.head? {vs : List JsonValue} (h : ItemsSpelling vs cs) :
    (skipBlanks (cs ++ rest)).head? ≠ some ']' := by
  cases h with
  | last hbefore h hafter | more hbefore h hrest =>
    obtain ⟨c, ds, rfl, hblank, hc⟩ := h.exists_cons
    rw [List.append_assoc, skipBlanks_append hbefore, List.cons_append, List.cons_append,
      skipBlanks_cons hblank]
    exact fun heq ↦ hc (Option.some.inj heq)

/-- Members do not begin with the closing brace. -/
theorem MembersSpelling.head? {ms : List (Option String × JsonValue)} (h : MembersSpelling ms cs) :
    (skipBlanks (cs ++ rest)).head? ≠ some '\x7d' := by
  cases h with
  | last hbefore hgap h hafter | more hbefore hgap h hrest =>
    rw [List.append_assoc, skipBlanks_append hbefore, quote_append, List.cons_append,
      skipBlanks_cons (by decide)]
    exact fun heq ↦ absurd (Option.some.inj heq) (by decide)

section Steps

variable {fuel : Nat} {v : JsonValue} {vs : List JsonValue} {ms : List (Option String × JsonValue)}
  {key : String} {ds : List Char}

/-- An array that does not close at once has items. -/
theorem value_items (hhead : (skipBlanks cs).head? ≠ some ']') (h : items fuel cs = some (vs, rest)) :
    value (fuel + 1) ('[' :: cs) = some (.array vs, rest) := by
  rw [value.eq_def]
  dsimp only
  rw [skipBlanks_cons (by decide)]
  split
  case h_5 hcs =>
    obtain rfl := (List.cons.inj hcs).2
    split
    · next hclose =>
      rw [hclose] at hhead
      exact absurd rfl hhead
    · rw [items_skipBlanks, h]
      rfl
  case h_7 hitems hmembers => exact (hitems cs rfl).elim
  all_goals next heq => exact absurd (List.cons.inj heq).1 (by decide)

/-- An object that does not close at once has members. -/
theorem value_members (hhead : (skipBlanks cs).head? ≠ some '\x7d')
    (h : members fuel cs = some (ms, rest)) :
    value (fuel + 1) ('\x7b' :: cs) = some (.object ms, rest) := by
  rw [value.eq_def]
  dsimp only
  rw [skipBlanks_cons (by decide)]
  split
  case h_6 hcs =>
    obtain rfl := (List.cons.inj hcs).2
    split
    · next hclose =>
      rw [hclose] at hhead
      exact absurd rfl hhead
    · rw [members_skipBlanks, h]
      rfl
  case h_7 hmembers => exact (hmembers cs rfl).elim
  all_goals next heq => exact absurd (List.cons.inj heq).1 (by decide)

/-- The closing bracket after an item ends the items. -/
theorem items_last (hv : value fuel cs = some (v, ds)) (hclose : skipBlanks ds = ']' :: rest) :
    items (fuel + 1) cs = some ([v], rest) := by
  rw [items, hv]
  dsimp only [Option.bind_eq_bind, Option.bind_some]
  rw [hclose]
  rfl

/-- A comma after an item is followed by another one. -/
theorem items_more (hv : value fuel cs = some (v, ',' :: ds)) (hvs : items fuel ds = some (vs, rest)) :
    items (fuel + 1) cs = some (v :: vs, rest) := by
  rw [items, hv]
  dsimp only [Option.bind_eq_bind, Option.bind_some]
  rw [skipBlanks_cons (by decide)]
  exact congrArg (Option.map _) hvs

/-- A member, and the members after it or the brace that closes them. -/
theorem members_cons {before : List Char} (hbefore : IsBlanks before)
    (hv : value fuel cs = some (v, ds))
    (h : (ms = [] ∧ skipBlanks ds = '\x7d' :: rest) ∨
      ∃ es, skipBlanks ds = ',' :: es ∧ members fuel es = some (ms, rest)) :
    members (fuel + 1) (before ++ (JsonValue.quote key ++ ':' :: cs)) =
      some ((some key, v) :: ms, rest) := by
  rw [members.eq_def]
  dsimp only
  rw [skipBlanks_append hbefore, quote_append, skipBlanks_cons (by decide)]
  split
  · next hquote =>
    obtain rfl := (List.cons.inj hquote).2
    rw [text_quote]
    dsimp only [Option.bind_eq_bind, Option.bind_some]
    rw [skipBlanks_cons (by decide)]
    split
    · next hcolon =>
      obtain rfl := (List.cons.inj hcolon).2
      rw [hv, Option.bind_some]
      rcases h with ⟨rfl, hclose⟩ | ⟨es, hcomma, hms⟩
      · rw [hclose]
        rfl
      · rw [hcomma]
        exact congrArg (Option.map _) hms
    · next h => exact (h _ rfl).elim
  · next h => exact (h _ rfl).elim

end Steps

theorem endsNumeral_of_blanks {after : List Char} (h : IsBlanks after) {c : Char}
    (hc : continuesNumeral c = false) : endsNumeral (after ++ c :: rest) = true := by
  rcases after with - | ⟨d, after⟩
  · exact (Bool.not_eq_true' _).mpr hc
  · have hd := h d (List.mem_cons_self ..)
    simp only [isBlank, Bool.or_eq_true, beq_iff_eq] at hd
    rcases hd with ((rfl | rfl) | rfl) | rfl <;> rfl

mutual

/-- **A spelling** is read as its value. -/
theorem value_append {v : JsonValue} {cs rest : List Char} {fuel : Nat} :
    Spelling v cs → 2 * cs.length < fuel + 2 → endsNumeral rest = true →
      value (fuel + 1) (cs ++ rest) = some (v, rest)
  | .null, _, _ => by rw [value]; rfl
  | .bool value, _, _ => by cases value <;> (rw [JsonReader.value]; rfl)
  | .number h, _, hrest => by rw [value_numeral fuel h hrest, String.ofList_toList]
  | .string s, _, _ => by
    rw [quote_append, value.eq_def]
    dsimp only
    rw [skipBlanks_cons (by decide)]
    exact congrArg (Option.map _) (text_quote s)
  | .noItems, _, _ => by rw [value]; rfl
  | .items h, hfuel, _ => by
    obtain ⟨fuel, rfl⟩ : ∃ n, fuel = n + 1 := ⟨fuel - 1, by rw [List.length_cons] at hfuel; omega⟩
    rw [List.length_cons] at hfuel
    exact value_items h.head? (items_append h (by omega))
  | .noMembers, _, _ => by rw [value]; rfl
  | .members h, hfuel, _ => by
    obtain ⟨fuel, rfl⟩ : ∃ n, fuel = n + 1 := ⟨fuel - 1, by rw [List.length_cons] at hfuel; omega⟩
    rw [List.length_cons] at hfuel
    exact value_members h.head? (members_append h (by omega))

/-- Items are read as they are spelled, with enough fuel. -/
theorem items_append {vs : List JsonValue} {cs rest : List Char} {fuel : Nat} :
    ItemsSpelling vs cs → 2 * cs.length < fuel + 2 →
      items (fuel + 1) (cs ++ rest) = some (vs, rest)
  | @ItemsSpelling.last v before cs after hbefore h hafter, hfuel => by
    simp only [List.length_append, List.length_singleton] at hfuel
    obtain ⟨fuel, rfl⟩ : ∃ n, fuel = n + 1 := ⟨fuel - 1, by omega⟩
    have hv : value (fuel + 1) (before ++ (cs ++ (after ++ ']' :: rest))) =
        some (v, after ++ ']' :: rest) := by
      rw [value_blanks hbefore]
      exact value_append h (by omega) (endsNumeral_of_blanks hafter rfl)
    simp only [List.append_assoc, List.cons_append, List.nil_append]
    exact items_last hv (by rw [skipBlanks_append hafter, skipBlanks_cons (by decide)])
  | @ItemsSpelling.more v vs before cs ds hbefore h hrest, hfuel => by
    simp only [List.length_append, List.length_cons] at hfuel
    obtain ⟨fuel, rfl⟩ : ∃ n, fuel = n + 1 := ⟨fuel - 1, by omega⟩
    have hv : value (fuel + 1) (before ++ (cs ++ ',' :: (ds ++ rest))) =
        some (v, ',' :: (ds ++ rest)) := by
      rw [value_blanks hbefore]
      exact value_append h (by omega) rfl
    simp only [List.append_assoc, List.cons_append]
    exact items_more hv (items_append hrest (by omega))

/-- Members are read as they are spelled, with enough fuel. -/
theorem members_append {ms : List (Option String × JsonValue)} {cs rest : List Char} {fuel : Nat} :
    MembersSpelling ms cs → 2 * cs.length < fuel + 2 →
      members (fuel + 1) (cs ++ rest) = some (ms, rest)
  | @MembersSpelling.last key v before gap cs after hbefore hgap h hafter, hfuel => by
    simp only [List.length_append, List.length_cons] at hfuel
    obtain ⟨fuel, rfl⟩ : ∃ n, fuel = n + 1 := ⟨fuel - 1, by omega⟩
    have hv : value (fuel + 1) (gap ++ (cs ++ (after ++ '\x7d' :: rest))) =
        some (v, after ++ '\x7d' :: rest) := by
      rw [value_blanks hgap]
      exact value_append h (by omega) (endsNumeral_of_blanks hafter rfl)
    simp only [List.append_assoc, List.cons_append, List.nil_append]
    refine members_cons hbefore hv (.inl ⟨rfl, ?_⟩)
    rw [skipBlanks_append hafter, skipBlanks_cons (by decide)]
  | @MembersSpelling.more key v ms before gap cs ds hbefore hgap h hrest, hfuel => by
    simp only [List.length_append, List.length_cons] at hfuel
    obtain ⟨fuel, rfl⟩ : ∃ n, fuel = n + 1 := ⟨fuel - 1, by omega⟩
    have hv : value (fuel + 1) (gap ++ (cs ++ ',' :: (ds ++ rest))) =
        some (v, ',' :: (ds ++ rest)) := by
      rw [value_blanks hgap]
      exact value_append h (by omega) rfl
    simp only [List.append_assoc, List.cons_append]
    exact members_cons hbefore hv
      (.inr ⟨ds ++ rest, skipBlanks_cons (by decide), members_append hrest (by omega)⟩)

end

end JsonReader

namespace JsonValue

open JsonReader

/-- **The value of a text** is the one that the text spells. -/
theorem parse_of_spelling {v : JsonValue} {cs : List Char} (h : Spelling v cs) :
    parse (String.ofList cs) = some v := by
  have hvalue : value (2 * cs.length + 2) (cs ++ []) = some (v, []) :=
    value_append h (by omega) rfl
  rw [List.append_nil] at hvalue
  rw [parse, String.toList_ofList]
  dsimp only
  rw [hvalue]
  rfl

/-! ### Written values -/

/-- The numbers of the value are numerals, and its texts and names are there. -/
inductive Writable : JsonValue → Prop where
  | null : Writable .null
  | bool (value : Bool) : Writable (.bool value)
  | number {literal : String} (h : Numeral literal.toList) : Writable (.number literal)
  | text (s : String) : Writable (text s)
  | array {items : List JsonValue} (h : ∀ v ∈ items, Writable v) : Writable (.array items)
  | record {members : List (String × JsonValue)} (h : ∀ m ∈ members, Writable m.2) :
      Writable (record members)

theorem isBlanks_nil : IsBlanks [] := fun _ ↦ by simp

/-- An indented new line is blank. -/
theorem isBlanks_indented (depth : Nat) : IsBlanks (indented depth) := by
  intro c hc
  rcases List.mem_cons.mp hc with rfl | hc
  · rfl
  · rw [List.eq_of_mem_replicate hc]
    rfl

/-- The members of a record. -/
def named (members : List (String × JsonValue)) : List (Option String × JsonValue) :=
  members.map fun m ↦ (some m.1, m.2)

theorem record_eq (members : List (String × JsonValue)) : record members = .object (named members) :=
  rfl

/-- The compact layout of items spells them. -/
theorem compactItems_spelling {vs : List JsonValue} (hne : vs ≠ [])
    (h : ∀ v ∈ vs, Spelling v v.compactChars) : ItemsSpelling vs (compactItems vs ++ [']']) := by
  induction vs with
  | nil => exact absurd rfl hne
  | cons v vs ih =>
    obtain ⟨hv, hvs⟩ := List.forall_mem_cons.mp h
    rcases vs with - | ⟨w, vs⟩
    · exact .last isBlanks_nil hv isBlanks_nil
    · rw [compactItems, List.append_assoc, List.append_assoc]
      exact .more isBlanks_nil hv (ih (List.cons_ne_nil w vs) hvs)

/-- The compact layout of members spells them. -/
theorem compactMembers_spelling {ms : List (String × JsonValue)} (hne : ms ≠ [])
    (h : ∀ m ∈ ms, Spelling m.2 m.2.compactChars) :
    MembersSpelling (named ms) (compactMembers (named ms) ++ ['\x7d']) := by
  induction ms with
  | nil => exact absurd rfl hne
  | cons m ms ih =>
    obtain ⟨hm, hms⟩ := List.forall_mem_cons.mp h
    rcases ms with - | ⟨n, ms⟩
    · show MembersSpelling [(some m.1, m.2)] (quote m.1 ++ [':'] ++ m.2.compactChars ++ ['\x7d'])
      rw [List.append_assoc, List.append_assoc]
      exact .last isBlanks_nil isBlanks_nil hm isBlanks_nil
    · show MembersSpelling ((some m.1, m.2) :: named (n :: ms))
        (quote m.1 ++ [':'] ++ m.2.compactChars ++ [','] ++ compactMembers (named (n :: ms)) ++
          ['\x7d'])
      simp only [List.append_assoc]
      exact .more isBlanks_nil isBlanks_nil hm (ih (List.cons_ne_nil n ms) hms)

/-- **A writable value** is spelled by its form on one line. -/
theorem Writable.compact {v : JsonValue} (h : Writable v) : Spelling v v.compactChars := by
  induction h with
  | null => exact .null
  | bool value => exact .bool value
  | number h => exact .number h
  | text s => exact .string s
  | @array items h ih =>
    rcases items with - | ⟨v, vs⟩
    · exact .noItems
    · exact .items (compactItems_spelling (List.cons_ne_nil v vs) ih)
  | @record members h ih =>
    rcases members with - | ⟨m, ms⟩
    · exact .noMembers
    · exact .members (compactMembers_spelling (List.cons_ne_nil m ms) ih)

variable {depth : Nat} {after : List Char}

/-- The indented layout of items spells them. -/
theorem prettyItems_spelling {vs : List JsonValue} (hne : vs ≠ []) (hafter : IsBlanks after)
    (h : ∀ v ∈ vs, Spelling v (v.prettyChars depth)) :
    ItemsSpelling vs (prettyItems depth vs ++ (after ++ [']'])) := by
  induction vs with
  | nil => exact absurd rfl hne
  | cons v vs ih =>
    obtain ⟨hv, hvs⟩ := List.forall_mem_cons.mp h
    rcases vs with - | ⟨w, vs⟩
    · rw [prettyItems, List.append_assoc]
      exact .last (isBlanks_indented depth) hv hafter
    · rw [prettyItems]
      simp only [List.append_assoc]
      exact .more (isBlanks_indented depth) hv (ih (List.cons_ne_nil w vs) hvs)

/-- The indented layout of members spells them. -/
theorem prettyMembers_spelling {ms : List (String × JsonValue)} (hne : ms ≠ [])
    (hafter : IsBlanks after) (h : ∀ m ∈ ms, Spelling m.2 (m.2.prettyChars depth)) :
    MembersSpelling (named ms) (prettyMembers depth (named ms) ++ (after ++ ['\x7d'])) := by
  have hgap : IsBlanks [' '] := List.forall_mem_singleton.mpr rfl
  induction ms with
  | nil => exact absurd rfl hne
  | cons m ms ih =>
    obtain ⟨hm, hms⟩ := List.forall_mem_cons.mp h
    rcases ms with - | ⟨n, ms⟩
    · show MembersSpelling [(some m.1, m.2)] (indented depth ++ quote m.1 ++ [':', ' '] ++
        m.2.prettyChars depth ++ (after ++ ['\x7d']))
      simp only [List.append_assoc]
      exact .last (isBlanks_indented depth) hgap hm hafter
    · show MembersSpelling ((some m.1, m.2) :: named (n :: ms))
        (indented depth ++ quote m.1 ++ [':', ' '] ++ m.2.prettyChars depth ++ [','] ++
          prettyMembers depth (named (n :: ms)) ++ (after ++ ['\x7d']))
      simp only [List.append_assoc]
      exact .more (isBlanks_indented depth) hgap hm (ih (List.cons_ne_nil n ms) hms)

/-- **A writable value** is spelled by its form over several lines. -/
theorem Writable.pretty {v : JsonValue} (h : Writable v) (depth : Nat) :
    Spelling v (v.prettyChars depth) := by
  induction h generalizing depth with
  | null => exact .null
  | bool value => exact .bool value
  | number h => exact .number h
  | text s => exact .string s
  | @array items h ih =>
    rcases items with - | ⟨v, vs⟩
    · exact .noItems
    · rw [prettyChars]
      · simp only [List.append_assoc]
        exact .items (prettyItems_spelling (List.cons_ne_nil v vs) (isBlanks_indented depth)
          fun w hw ↦ ih w hw (depth + 1))
      · exact List.cons_ne_nil v vs
  | @record members h ih =>
    rcases members with - | ⟨m, ms⟩
    · exact .noMembers
    · rw [record_eq, prettyChars]
      · simp only [List.append_assoc]
        exact .members (prettyMembers_spelling (List.cons_ne_nil m ms) (isBlanks_indented depth)
          fun n hn ↦ ih n hn (depth + 1))
      · exact List.cons_ne_nil _ _

end JsonValue

end StepSequencer
