import StepSequencer.Proofs.Rule.Stored

/-!
# Decoded rules

A decoder takes one level of room for each array or object that it opens, in whichever of its
spellings a value comes, and the stored form of what it gives needs no more levels than that. So a
decoded rule can be stored where it came from, and comes back if its numbers are whole
(`Rule.ofText?_toJson_of_whole`).
-/

namespace StepSequencer

open JsonValue (tagged record text)

/-- Each result of a walk comes from one of the items. -/
theorem exists_of_mapM {α β : Type} {f : α → Option β} {l : List α} {bs : List β}
    (h : l.mapM f = some bs) : ∀ b ∈ bs, ∃ a ∈ l, f a = some b := by
  induction l generalizing bs with
  | nil =>
    obtain rfl := Option.some.inj h
    exact List.forall_mem_nil _
  | cons a l ih =>
    rw [List.mapM_cons] at h
    obtain ⟨b, hb, hrest⟩ := Option.bind_eq_some_iff.mp h
    obtain ⟨cs, hcs, hbs⟩ := Option.bind_eq_some_iff.mp hrest
    obtain rfl := Option.some.inj hbs
    refine List.forall_mem_cons.mpr ⟨⟨a, List.mem_cons_self, hb⟩, fun c hc ↦ ?_⟩
    obtain ⟨d, hd, hf⟩ := ih hcs c hc
    exact ⟨d, List.mem_cons_of_mem _ hd, hf⟩

/-! ### Expressions -/

namespace StepExpr

/-- An operation has its operands one level further in. -/
theorem binaryOfJson?_eq_some {room : Nat} {v : JsonValue} {e : StepExpr}
    (h : binaryOfJson? room v = some e) :
    ∃ n op lhs rhs l r, room = n + 1 ∧ e = .binary op lhs rhs ∧ ofJson? n l = some lhs ∧
      ofJson? n r = some rhs := by
  unfold binaryOfJson? at h
  split at h
  · cases h
  split at h
  · obtain ⟨op, -, h⟩ := Option.bind_eq_some_iff.mp h
    obtain ⟨lhs, hlhs, h⟩ := Option.bind_eq_some_iff.mp h
    obtain ⟨rhs, hrhs, h⟩ := Option.bind_eq_some_iff.mp h
    exact ⟨_, op, lhs, rhs, _, _, rfl, (Option.some.inj h).symm, hlhs, hrhs⟩
  · cases h

theorem nesting_le_of_ofJson? {room : Nat} {v : JsonValue} {e : StepExpr}
    (h : ofJson? room v = some e) : e.toJson.nesting ≤ room := by
  induction room using Nat.strongRecOn generalizing v e with | ind room ih => ?_
  unfold ofJson? at h
  split at h
  · obtain rfl := Option.some.inj h
    exact Nat.zero_le _
  · split at h
    · split at h
      · obtain rfl := Option.some.inj h
        exact Nat.zero_le _
      · cases h
    · obtain ⟨value, -, rfl⟩ := Option.map_eq_some_iff.mp h
      rw [toJson, JsonValue.nesting_tagged, value.nesting_toJson]
      exact Nat.le_add_left 1 _
    · obtain ⟨operand, hoperand, rfl⟩ := Option.map_eq_some_iff.mp h
      rw [toJson, JsonValue.nesting_tagged]
      exact Nat.succ_le_succ (ih _ (Nat.lt_succ_self _) hoperand)
    · obtain ⟨n, op, lhs, rhs, l, r, rfl, rfl, hlhs, hrhs⟩ := binaryOfJson?_eq_some h
      rw [toJson, JsonValue.nesting_tagged, Nat.succ_le_succ_iff, JsonValue.nesting_record_le_succ,
        forall_operands]
      exact ⟨ih n (by omega) hlhs, ih n (by omega) hrhs⟩
    · cases h
  · cases h

end StepExpr

/-! ### Conditions -/

namespace Condition

/-- A congruence needs room for one level. -/
theorem congruentOfJson?_eq_some {room : Nat} {v : JsonValue} {c : Condition}
    (h : congruentOfJson? room v = some c) :
    ∃ n offset modulus, room = n + 1 ∧ c = .congruent offset modulus := by
  unfold congruentOfJson? at h
  split at h
  · cases h
  split at h
  · obtain ⟨offset, -, h⟩ := Option.bind_eq_some_iff.mp h
    obtain ⟨modulus, -, h⟩ := Option.bind_eq_some_iff.mp h
    exact ⟨_, offset, modulus, rfl, (Option.some.inj h).symm⟩
  · cases h

/-- A comparison has its sides one level further in. -/
theorem compareOfJson?_eq_some {room : Nat} {v : JsonValue} {c : Condition}
    (h : compareOfJson? room v = some c) :
    ∃ n op lhs rhs l r, room = n + 1 ∧ c = .compare op lhs rhs ∧ StepExpr.ofJson? n l = some lhs ∧
      StepExpr.ofJson? n r = some rhs := by
  unfold compareOfJson? at h
  split at h
  · cases h
  split at h
  · obtain ⟨op, -, h⟩ := Option.bind_eq_some_iff.mp h
    obtain ⟨lhs, hlhs, h⟩ := Option.bind_eq_some_iff.mp h
    obtain ⟨rhs, hrhs, h⟩ := Option.bind_eq_some_iff.mp h
    exact ⟨_, op, lhs, rhs, _, _, rfl, (Option.some.inj h).symm, hlhs, hrhs⟩
  · cases h

/-- Members stand one level further in. -/
theorem listOfJson?_eq_some {room : Nat} {v : JsonValue} {cs : List Condition}
    (h : listOfJson? room v = some cs) :
    ∃ n, room = n + 1 ∧ ∀ c ∈ cs, ∃ v, ofJson? n v = some c := by
  unfold listOfJson? at h
  split at h
  · refine ⟨_, rfl, fun c hc ↦ ?_⟩
    obtain ⟨v, -, hv⟩ := exists_of_mapM h c hc
    exact ⟨v, hv⟩
  · cases h

theorem listToJson_eq_map (cs : List Condition) : listToJson cs = cs.map toJson := by
  induction cs with
  | nil => rfl
  | cons c cs ih => rw [listToJson, ih, List.map_cons]

/-- A list of conditions is one level deeper than its deepest member. -/
theorem nesting_listToJson_le {cs : List Condition} {n : Nat} (h : ∀ c ∈ cs, c.toJson.nesting ≤ n) :
    (JsonValue.array (listToJson cs)).nesting ≤ n + 1 := by
  rw [JsonValue.nesting_array_le_succ, listToJson_eq_map]
  exact List.forall_mem_map.mpr h

/-- A condition that holds one word takes one level. -/
theorem nesting_word_le {key : String} {value : Int64} {n : Nat} :
    (tagged key (.ofWord value)).nesting ≤ n + 1 := by
  rw [JsonValue.nesting_tagged, JsonValue.nesting_ofWord]
  exact Nat.le_add_left 1 n

theorem nesting_le_of_ofJson? {room : Nat} {v : JsonValue} {c : Condition}
    (h : ofJson? room v = some c) : c.toJson.nesting ≤ room := by
  induction room using Nat.strongRecOn generalizing v c with | ind room ih => ?_
  -- a list takes one level of the room before its members
  have hlist {cs : List Condition} {n : Nat} (hn : n < room) {v : JsonValue}
      (hcs : listOfJson? n v = some cs) : (JsonValue.array (listToJson cs)).nesting ≤ n := by
    obtain ⟨m, rfl, hmembers⟩ := listOfJson?_eq_some hcs
    refine nesting_listToJson_le fun c hc ↦ ?_
    obtain ⟨v, hv⟩ := hmembers c hc
    exact ih m (by omega) hv
  unfold ofJson? at h
  split at h
  case h_2 => cases h
  split at h
  · obtain ⟨value, -, rfl⟩ := Option.map_eq_some_iff.mp h
    rw [toJson, JsonValue.nesting_tagged, JsonValue.nesting_bool]
    exact Nat.le_add_left 1 _
  · obtain ⟨n, offset, modulus, rfl, rfl⟩ := congruentOfJson?_eq_some h
    rw [toJson, JsonValue.nesting_tagged, Nat.succ_le_succ_iff, JsonValue.nesting_record_le_succ]
    simp
  iterate 5
    · obtain ⟨bound, -, rfl⟩ := Option.map_eq_some_iff.mp h
      exact nesting_word_le
  · obtain ⟨n, op, lhs, rhs, l, r, rfl, rfl, hlhs, hrhs⟩ := compareOfJson?_eq_some h
    rw [toJson, JsonValue.nesting_tagged, Nat.succ_le_succ_iff, JsonValue.nesting_record_le_succ,
      forall_operands]
    exact ⟨StepExpr.nesting_le_of_ofJson? hlhs, StepExpr.nesting_le_of_ofJson? hrhs⟩
  iterate 2
    · obtain ⟨members, hmembers, rfl⟩ := Option.map_eq_some_iff.mp h
      rw [toJson, JsonValue.nesting_tagged]
      exact Nat.succ_le_succ (hlist (Nat.lt_succ_self _) hmembers)
  · obtain ⟨operand, hoperand, rfl⟩ := Option.map_eq_some_iff.mp h
    rw [toJson, JsonValue.nesting_tagged]
    exact Nat.succ_le_succ (ih _ (Nat.lt_succ_self _) hoperand)
  · cases h

end Condition

/-! ### Rules -/

theorem Outcome.nesting_le_of_ofJson? {room : Nat} {v : JsonValue} {o : Outcome}
    (h : ofJson? room v = some o) : o.toJson.nesting ≤ room := by
  unfold ofJson? at h
  split at h
  iterate 3
    · obtain rfl := Option.some.inj h
      exact Nat.zero_le _
  · cases h
  split at h
  · obtain ⟨value, -, rfl⟩ := Option.map_eq_some_iff.mp h
    exact Condition.nesting_word_le
  · cases h

namespace Rule

/-- A test has its condition and its branches one level further in. -/
theorem testOfJson?_eq_some {room : Nat} {v : JsonValue} {r : Rule}
    (h : testOfJson? room v = some r) :
    ∃ n condition taken otherwise v₁ v₂ v₃, room = n + 1 ∧ r = .test condition taken otherwise ∧
      Condition.ofJson? n v₁ = some condition ∧ ofJson? n v₂ = some taken ∧
      ofJson? n v₃ = some otherwise := by
  unfold testOfJson? at h
  split at h
  · cases h
  split at h
  · obtain ⟨condition, hcondition, h⟩ := Option.bind_eq_some_iff.mp h
    obtain ⟨taken, htaken, h⟩ := Option.bind_eq_some_iff.mp h
    obtain ⟨otherwise, hotherwise, h⟩ := Option.bind_eq_some_iff.mp h
    exact ⟨_, condition, taken, otherwise, _, _, _, rfl, (Option.some.inj h).symm, hcondition, htaken,
      hotherwise⟩
  · cases h

/-- A rebased rule has the rule one level further in. -/
theorem rebaseOfJson?_eq_some {room : Nat} {v : JsonValue} {r : Rule}
    (h : rebaseOfJson? room v = some r) :
    ∃ n shift rule v₁, room = n + 1 ∧ r = .rebase shift rule ∧ ofJson? n v₁ = some rule := by
  unfold rebaseOfJson? at h
  split at h
  · cases h
  split at h
  · obtain ⟨shift, -, h⟩ := Option.bind_eq_some_iff.mp h
    obtain ⟨rule, hrule, h⟩ := Option.bind_eq_some_iff.mp h
    exact ⟨_, shift, rule, _, rfl, (Option.some.inj h).symm, hrule⟩
  · cases h

theorem nesting_le_of_ofJson? {room : Nat} {v : JsonValue} {r : Rule} (h : ofJson? room v = some r) :
    r.toJson.nesting ≤ room := by
  induction room using Nat.strongRecOn generalizing v r with | ind room ih => ?_
  unfold ofJson? at h
  split at h
  case h_2 => cases h
  split at h
  · obtain ⟨outcome, houtcome, rfl⟩ := Option.map_eq_some_iff.mp h
    rw [toJson, JsonValue.nesting_tagged]
    exact Nat.succ_le_succ (Outcome.nesting_le_of_ofJson? houtcome)
  · obtain ⟨n, condition, taken, otherwise, _, _, _, rfl, rfl, hcondition, htaken, hotherwise⟩ :=
      testOfJson?_eq_some h
    rw [toJson, JsonValue.nesting_tagged, Nat.succ_le_succ_iff, JsonValue.nesting_record_le_succ]
    simp only [List.forall_mem_cons, List.not_mem_nil, false_imp_iff, implies_true, and_true]
    exact ⟨Condition.nesting_le_of_ofJson? hcondition, ih n (by omega) htaken,
      ih n (by omega) hotherwise⟩
  · obtain ⟨n, shift, rule, _, rfl, rfl, hrule⟩ := rebaseOfJson?_eq_some h
    rw [toJson, JsonValue.nesting_tagged, Nat.succ_le_succ_iff, JsonValue.nesting_record_le_succ]
    simp only [List.forall_mem_cons, JsonValue.nesting_ofWord, Nat.zero_le, List.not_mem_nil,
      false_imp_iff, implies_true, true_and, and_true]
    exact ih n (by omega) hrule
  · cases h

/-- **A rule of whole numbers** is what its stored text stands for, exactly if that text is not nested
too deep; the text of a rule that was decoded, from whichever spelling, never is. -/
theorem ofText?_toJson_of_whole {r : Rule} (h : r.floats = []) :
    YieldsIf (ofText? r.toJson.compact) r (r.toJson.nesting ≤ maxNesting) ∧
      ∀ s, ofText? s = some r →
        r.toJson.nesting ≤ maxNesting ∧ ofText? r.toJson.compact = some r := by
  have hread : YieldsIf (ofText? r.toJson.compact) r (r.toJson.nesting ≤ maxNesting) := by
    rw [ofText?, JsonValue.compact, JsonValue.parse_of_spelling r.writable.compact,
      Option.bind_some]
    refine (r.ofJson?_toJson (h ▸ List.forall_mem_nil _) maxNesting).congr ?_
    rw [IsStorable, h]
    exact (and_iff_left (List.forall_mem_nil _)).symm
  refine ⟨hread, fun s hs ↦ ?_⟩
  obtain ⟨v, -, hv⟩ := Option.bind_eq_some_iff.mp hs
  have hfits := nesting_le_of_ofJson? hv
  exact ⟨hfits, hread.1 hfits⟩

/-- A rule with each kind of part. -/
def ofEveryKind : Rule :=
  .test (.any [.const true, .congruent (-3) 4, .equals Int64.minValue, .lessThan Int64.maxValue,
      .atMost 1, .greaterThan 2, .atLeast 3,
      .all [.compare .eq (.binary .pow .step (.const (.int (-2)))) (.neg .step), .not (.const false)]])
    (.rebase Int64.minValue (.answer (.sentinel Int64.maxValue)))
    (.test (.compare (.order .le) (.binary .rem .step (.const (.int 5))) .step) (.answer .nil)
      (.answer .false))

/-- A rule whose records are arrays, and whose last outcome is an object. -/
def arraySpelling : String :=
  "\x7b\"test\":[\x7b\"congruent\":[-9223372036854775808,3]\x7d, " ++
    "\x7b\"rebase\":[9223372036854775807,\x7b\"return\":\x7b\"sentinel\":1\x7d\x7d]\x7d, " ++
    "\x7b\"return\":\x7b\"nil\":null\x7d\x7d]\x7d"

/-- Each kind of part comes back, and so does a rule spelled with arrays. -/
theorem ofText?_toJson_of_whole_every_kind :
    ofEveryKind.floats = [] ∧ ofEveryKind.toJson.nesting ≤ maxNesting ∧
      ofText? ofEveryKind.toJson.compact = some ofEveryKind ∧
      ∃ r, ofText? arraySpelling = some r ∧ r.floats = [] ∧ ofText? r.toJson.compact = some r := by
  have hnesting : ofEveryKind.toJson.nesting ≤ maxNesting := by decide +kernel
  have hread : (ofText? arraySpelling).any (·.floats.isEmpty) = true := by decide +kernel
  obtain ⟨r, hr, hempty⟩ := (Option.any_eq_true _ _).mp hread
  have hfloats := List.isEmpty_iff.mp hempty
  exact ⟨rfl, hnesting, (ofText?_toJson_of_whole rfl).1.1 hnesting, r, hr, hfloats,
    ((ofText?_toJson_of_whole hfloats).2 arraySpelling hr).2⟩

end Rule

end StepSequencer
