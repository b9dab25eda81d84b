import StepSequencer.Proofs.Rule.Stored
import StepSequencer.Proofs.Track.Validity
import StepSequencer.Script.Reading
import StepSequencer.Track.Json

/-!
# Stored tracks

A track that was read from a script and can be played has finite floats everywhere outside of its
rules, so its stored form gives it back exactly if each of its rules is one that can be stored
(`Script.Accepts.ofText?_toJson`). The track, its slots and the slot itself take up three of the
levels of nesting.

A rule that cannot be stored is easily written: a comparison with `1.0 / 0.0` is read as one with
infinity, for which there is no literal (`Script.exists_accepts_ofText?_eq_none`).
-/

namespace StepSequencer

open JsonValue (tagged record text Writable optionalField yields_tagged yields_record yields_array)

/-! ### Presets -/

namespace Preset

variable {p : Preset}

theorem writable (p : Preset) : p.toJson.Writable := by
  refine .record fun m hm ↦ ?_
  obtain ⟨key, -, rfl⟩ := List.mem_map.mp hm
  exact JsonValue.writable_ofSingle _

@[simp] theorem nesting_toJson_le_succ (p : Preset) (n : Nat) : p.toJson.nesting ≤ n + 1 := by
  rw [toJson, JsonValue.nesting_record_le_succ]
  intro m hm
  obtain ⟨key, -, rfl⟩ := List.mem_map.mp hm
  rw [JsonValue.nesting_ofSingle]
  exact Nat.zero_le n

/-- The fields that are there set what they name. -/
theorem ofFields?_of_keeps {keys : List PresetKey}
    (h : ∀ key ∈ keys, (JsonValue.ofSingle (p.get key)).toSingle? = some (p.get key)) (q : Preset) :
    ofFields? keys (keys.map fun key ↦ some (.ofSingle (p.get key))) q =
      some (keys.foldl (fun q key ↦ q.set key (p.get key)) q) := by
  induction keys generalizing q with
  | nil => rfl
  | cons key keys ih =>
    obtain ⟨hkey, hkeys⟩ := List.forall_mem_cons.mp h
    rw [List.map_cons, ofFields?, hkey, Option.bind_eq_bind, Option.bind_some, ih hkeys,
      List.foldl_cons]

/-- A preset is what its settings are. -/
theorem foldl_set (p q : Preset) :
    PresetKey.all.foldl (fun q key ↦ q.set key (p.get key)) q = p := by
  cases p
  cases q
  rfl

theorem ofJson?_toJson (hfinite : ∀ key, (p.get key).isFinite = true)
    (hkeeps : ∀ key, KeepsSingle (p.get key)) (room : Nat) :
    YieldsIf (ofJson? room p.toJson) p (p.toJson.nesting ≤ room) := by
  have hfields := JsonValue.fields?_record (PresetKey.all.map PresetKey.name)
    (PresetKey.all.map fun key ↦ (key.name, .ofSingle (p.get key))) rfl (by decide)
  have hread : ofFields? PresetKey.all (PresetKey.all.map fun key ↦ some (.ofSingle (p.get key)))
      standard = some p := by
    rw [ofFields?_of_keeps fun key _ ↦ JsonValue.toSingle?_ofSingle (hfinite key) (hkeeps key),
      foldl_set]
  cases room with
  | zero => exact .of_none rfl JsonValue.not_nesting_record_le_zero
  | succ room =>
    refine (YieldsIf.of_eq ?_).congr (iff_true_intro (p.nesting_toJson_le_succ room))
    rw [List.map_map] at hfields
    rw [toJson, ofJson?, hfields]
    exact hread

end Preset

/-! ### Slots -/

namespace SampleSource

theorem writable : ∀ s : SampleSource, s.toJson.Writable
  | .folder => .text "folder"
  | .bundled name => (Writable.text name).tagged "builtin"

@[simp] theorem nesting_toJson_le_succ (s : SampleSource) (n : Nat) : s.toJson.nesting ≤ n + 1 := by
  cases s with
  | folder => exact Nat.zero_le _
  | bundled name =>
    rw [toJson, JsonValue.nesting_tagged, JsonValue.nesting_text]
    exact Nat.le_add_left 1 n

theorem ofJson?_toJson (s : SampleSource) (room : Nat) :
    YieldsIf (ofJson? room s.toJson) s (s.toJson.nesting ≤ room) := by
  cases s with
  | folder =>
    have hread : ofJson? room (text "folder") = some .folder := by cases room <;> rfl
    exact (YieldsIf.of_eq hread).congr (by simp [toJson])
  | bundled name =>
    refine (yields_tagged (p := True) rfl fun room ↦ ?_).congr (by simp [toJson])
    exact (YieldsIf.of_eq rfl).congr (by simp)

end SampleSource

namespace Slot

variable {s : Slot}

theorem writable (s : Slot) : s.toJson.Writable := by
  refine .record ?_
  simp only [List.forall_mem_cons, JsonValue.writable_int, s.source.writable, Writable.text,
    s.rule.writable, s.preset.writable, List.not_mem_nil, false_imp_iff, implies_true, and_self]

/-- The source and the preset of a slot fit wherever a preset fits. -/
theorem forall_fields {room : Nat} :
    (∀ m ∈ [("slot", JsonValue.int s.id.toNat), ("source", s.source.toJson),
      ("label", text s.label), ("predicate", s.rule.toJson), ("preset", s.preset.toJson)],
      m.2.nesting ≤ room) ↔ s.source.toJson.nesting ≤ room ∧ s.rule.toJson.nesting ≤ room ∧
        s.preset.toJson.nesting ≤ room := by
  simp

theorem toWhole?_id (s : Slot) : (JsonValue.int s.id.toNat).toWhole? 0 (2 ^ 16) = some (s.id.toNat : Int) := by
  have hid := s.id.toNat_lt
  exact JsonValue.toWhole?_int (by omega) (by omega) (by omega) (by omega)

/-- A stored slot is read back exactly if it fits and the floats of its rule are finite. -/
theorem ofJson?_toJson (hfinite : ∀ key, (s.preset.get key).isFinite = true)
    (hkeeps : ∀ key, KeepsSingle (s.preset.get key)) (hfloats : KeepsFinite s.rule.floats)
    (room : Nat) :
    YieldsIf (ofJson? room s.toJson) s (IsStorable room s.toJson s.rule.floats) := by
  refine yields_record rfl fun room ↦ ?_
  have hfields := JsonValue.fields?_record ["slot", "source", "label", "predicate", "preset"]
    [("slot", .int s.id.toNat), ("source", s.source.toJson), ("label", text s.label),
      ("predicate", s.rule.toJson), ("preset", s.preset.toJson)] rfl (by decide)
  simp only [List.map_cons, List.map_nil] at hfields
  have hlabel : (text s.label).toText? = some s.label := rfl
  have hid : UInt16.ofNat (s.id.toNat : Int).toNat = s.id := by
    rw [Int.toNat_natCast, UInt16.ofNat_toNat]
  simp only [ofJson?, hfields, Option.bind_eq_bind, s.toWhole?_id, optionalField, hlabel,
    Option.bind_some, hid]
  refine ((s.source.ofJson?_toJson room).bind ((s.rule.ofJson?_toJson hfloats room).bind
    (s.preset.ofJson?_toJson hfinite hkeeps room).into)).congr ?_
  rw [forall_fields, IsStorable]
  tauto

end Slot

/-! ### Tracks -/

namespace Track

variable {t : Track}

theorem writable (t : Track) : t.toJson.Writable := by
  have hslots : (JsonValue.array (t.slots.map Slot.toJson)).Writable :=
    .array fun v hv ↦ by
      obtain ⟨s, -, rfl⟩ := List.mem_map.mp hv
      exact s.writable
  refine .record ?_
  simp only [List.forall_mem_cons, JsonValue.writable_int, JsonValue.writable_ofSingle,
    Writable.text, hslots, List.not_mem_nil, false_imp_iff, implies_true, and_self]

/-- The slots of a track fit wherever the track's fields do. -/
theorem forall_fields {room : Nat} :
    (∀ m ∈ [("name", text t.name), ("samples_dir", text t.samplesDir), ("bpm", .ofSingle t.bpm),
      ("downbeat_count", .int t.stepCount.toNat), ("downbeat_time", .ofSingle t.beatsPerStep),
      ("slots", .array (t.slots.map Slot.toJson))], m.2.nesting ≤ room) ↔
      (JsonValue.array (t.slots.map Slot.toJson)).nesting ≤ room := by
  simp

/-- A track takes up three levels of nesting around its rules. -/
theorem nesting_toJson_le {n : Nat} :
    t.toJson.nesting ≤ n + 4 ↔ ∀ s ∈ t.slots, s.rule.toJson.nesting ≤ n + 1 := by
  have hslot (s : Slot) : s.toJson.nesting ≤ n + 2 ↔ s.rule.toJson.nesting ≤ n + 1 := by
    rw [Slot.toJson, JsonValue.nesting_record_le_succ, Slot.forall_fields]
    simp
  rw [toJson, JsonValue.nesting_record_le_succ, forall_fields, JsonValue.nesting_array_le_succ,
    List.forall_mem_map]
  exact forall₂_congr fun s _ ↦ hslot s

/-- A 32-bit float of a slot is one of its track. -/
theorem get_mem_singles {s : Slot} (hs : s ∈ t.slots) (key : PresetKey) :
    s.preset.get key ∈ t.singles := by
  have hkey : key ∈ PresetKey.all := by cases key <;> decide
  exact List.mem_cons_of_mem _ (List.mem_cons_of_mem _
    (List.mem_flatMap.mpr ⟨s, hs, List.mem_map_of_mem hkey⟩))

theorem toWhole?_stepCount (t : Track) :
    (JsonValue.int t.stepCount.toNat).toWhole? 0 (2 ^ 32) = some (t.stepCount.toNat : Int) := by
  have hsteps := t.stepCount.toNat_lt
  exact JsonValue.toWhole?_int (by omega) (by omega) (by omega) (by omega)

section Keeps

variable (hfinite : ∀ x ∈ t.singles, x.isFinite = true) (hkeeps : ∀ x ∈ t.singles, KeepsSingle x)
  (hfloats : ∀ s ∈ t.slots, KeepsFinite s.rule.floats)

include hfinite hkeeps hfloats

theorem slots_ofJson?_toJson (room : Nat) :
    YieldsIf (Slot.listOfJson? room (.array (t.slots.map Slot.toJson))) t.slots
      ((JsonValue.array (t.slots.map Slot.toJson)).nesting ≤ room ∧
        ∀ s ∈ t.slots, ∀ x ∈ s.rule.floats, x.isFinite = true) := by
  refine yields_array rfl fun room ↦ ?_
  have hslots := YieldsIf.mapM (k := id) fun s hs ↦ Slot.ofJson?_toJson
    (fun key ↦ hfinite _ (get_mem_singles hs key)) (fun key ↦ hkeeps _ (get_mem_singles hs key))
    (hfloats s hs) room
  rw [List.map_id] at hslots
  refine hslots.congr ?_
  rw [List.forall_mem_map]
  exact forall₂_and.symm

/-- A stored track is read back exactly if it fits and the floats of its rules are finite. -/
theorem ofJson?_toJson (room : Nat) :
    YieldsIf (ofJson? room t.toJson) t
      (t.toJson.nesting ≤ room ∧ ∀ s ∈ t.slots, ∀ x ∈ s.rule.floats, x.isFinite = true) := by
  refine yields_record rfl fun room ↦ ?_
  have hfields := JsonValue.fields?_record fieldNames
    [("name", text t.name), ("samples_dir", text t.samplesDir), ("bpm", .ofSingle t.bpm),
      ("downbeat_count", .int t.stepCount.toNat), ("downbeat_time", .ofSingle t.beatsPerStep),
      ("slots", .array (t.slots.map Slot.toJson))] rfl (by decide)
  have hname : (text t.name).toText? = some t.name := rfl
  have hdir : (text t.samplesDir).toText? = some t.samplesDir := rfl
  have hbpm := JsonValue.toSingle?_ofSingle (hfinite _ List.mem_cons_self)
    (hkeeps _ List.mem_cons_self)
  have hbeats := JsonValue.toSingle?_ofSingle (hfinite _ (List.mem_cons_of_mem _ List.mem_cons_self))
    (hkeeps _ (List.mem_cons_of_mem _ List.mem_cons_self))
  have hsteps : UInt32.ofNat (t.stepCount.toNat : Int).toNat = t.stepCount := by
    rw [Int.toNat_natCast, UInt32.ofNat_toNat]
  simp only [List.map_cons, List.map_nil] at hfields
  simp only [ofJson?, hfields, Option.bind_eq_bind, hname, hdir, hbpm, hbeats, Option.bind_some,
    t.toWhole?_stepCount, hsteps]
  refine (slots_ofJson?_toJson hfinite hkeeps hfloats room).into.congr ?_
  rw [forall_fields]

/-- A track whose floats are finite outside of its rules is read back, from either layout, exactly
if its rules can be stored. -/
theorem ofText?_toJson :
    YieldsIf (ofText? t.toJson.compact) t
        (∀ s ∈ t.slots, IsStorable (maxNesting - 3) s.rule.toJson s.rule.floats) ∧
      YieldsIf (ofText? t.toJson.pretty) t
        (∀ s ∈ t.slots, IsStorable (maxNesting - 3) s.rule.toJson s.rule.floats) := by
  have hread := (ofJson?_toJson hfinite hkeeps hfloats maxNesting).congr
    (q := ∀ s ∈ t.slots, IsStorable (maxNesting - 3) s.rule.toJson s.rule.floats) <| by
      rw [maxNesting, nesting_toJson_le]
      exact forall₂_and
  constructor
  · rwa [ofText?, JsonValue.compact, JsonValue.parse_of_spelling t.writable.compact,
      Option.bind_some]
  · rwa [ofText?, JsonValue.pretty, JsonValue.parse_of_spelling (t.writable.pretty 0),
      Option.bind_some]

end Keeps

end Track

/-! ### Accepted scripts -/

namespace Script

/-- The script gives the track, and the track can be played. -/
structure Accepts (text name : String) (t : Track) : Prop where
  read : (readTrack text name).1 = .ok t
  valid : t.validate = .ok ()

/-- **The track of an accepted script** is stored for good, on one line or over several, exactly if
each of its rules is nested no deeper than there is room for and compares with finite floats only;
otherwise its stored form is no track. -/
theorem stored_of_accepts {text name : String} {t : Track} (h : Accepts text name t)
    (hkeeps : ∀ x ∈ t.singles, KeepsSingle x) (hfloats : ∀ s ∈ t.slots, KeepsFinite s.rule.floats) :
    YieldsIf (Track.ofText? t.toJson.compact) t
        (∀ s ∈ t.slots, IsStorable (maxNesting - 3) s.rule.toJson s.rule.floats) ∧
      YieldsIf (Track.ofText? t.toJson.pretty) t
        (∀ s ∈ t.slots, IsStorable (maxNesting - 3) s.rule.toJson s.rule.floats) :=
  Track.ofText?_toJson (Track.isFinite_of_mem_singles h.valid) hkeeps hfloats

/-- A script with one sample line, which is guarded by a bound on the step. -/
def boundedScript (bound : String) : String :=
  "n = range(0, 4, 1)\nlive_loop :l do\n\ti = n.tick\n\tsample 'kit', 0 if i < " ++ bound ++
    "\n\tsleep 1\nend\n"

/-- The track of such a script, whose bound is a float. -/
def boundedTrack (bound : Float) : Track where
  name := "loop"
  samplesDir := "kit"
  bpm := 60
  stepCount := 4
  beatsPerStep := 1
  slots := [⟨0, .folder, "sleep_sample_0", .test (.compare (.order .lt) .step (.const (.float bound)))
    (.answer .true) (.answer .false), .standard⟩]

theorem keepsSingle_boundedTrack (bound : Float) :
    ∀ x ∈ (boundedTrack bound).singles, KeepsSingle x := by
  show ∀ x ∈ [60, 1, 0, 0, 1, 0, 1, -1, 1, 0],
    (JsonValue.number (NumberLayout.json.single x)).toSingle? = some x
  decide +kernel

theorem accepts_half : Accepts (boundedScript "0.5") "loop" (boundedTrack 0.5) where
  read := by with_unfolding_all rfl
  valid := by rfl

/-- A finite bound is stored. -/
theorem stored_of_accepts_half :
    Accepts (boundedScript "0.5") "loop" (boundedTrack 0.5) ∧
      (∀ x ∈ (boundedTrack 0.5).singles, KeepsSingle x) ∧
      (∀ s ∈ (boundedTrack 0.5).slots, KeepsFinite s.rule.floats) ∧
      Track.ofText? (boundedTrack 0.5).toJson.compact = some (boundedTrack 0.5) ∧
      Track.ofText? (boundedTrack 0.5).toJson.pretty = some (boundedTrack 0.5) := by
  have hfloats : ∀ s ∈ (boundedTrack 0.5).slots, KeepsFinite s.rule.floats := by
    rw [boundedTrack, List.forall_mem_singleton]
    refine List.forall_mem_singleton.mpr fun _ ↦ ?_
    with_unfolding_all rfl
  have hstorable : ∀ s ∈ (boundedTrack 0.5).slots,
      IsStorable (maxNesting - 3) s.rule.toJson s.rule.floats := by
    unfold IsStorable
    decide +kernel
  obtain ⟨hcompact, hpretty⟩ := stored_of_accepts accepts_half (keepsSingle_boundedTrack 0.5) hfloats
  exact ⟨accepts_half, keepsSingle_boundedTrack 0.5, hfloats, hcompact.1 hstorable,
    hpretty.1 hstorable⟩

theorem accepts_infinite : Accepts (boundedScript "1.0 / 0.0") "loop" (boundedTrack (1 / 0)) where
  read := by with_unfolding_all rfl
  valid := by rfl

/-- **A track that is stored and lost**: there is no literal for the bound. -/
theorem not_stored_of_accepts_infinite :
    Accepts (boundedScript "1.0 / 0.0") "loop" (boundedTrack (1 / 0)) ∧
      (∀ x ∈ (boundedTrack (1 / 0)).singles, KeepsSingle x) ∧
      (∀ s ∈ (boundedTrack (1 / 0)).slots, KeepsFinite s.rule.floats) ∧
      Track.ofText? (boundedTrack (1 / 0)).toJson.compact = none ∧
      Track.ofText? (boundedTrack (1 / 0)).toJson.pretty = none := by
  have hinfinite : Float.isFinite (1 / 0) = false := by decide +kernel
  have hfloats : ∀ s ∈ (boundedTrack (1 / 0)).slots, KeepsFinite s.rule.floats := by
    rw [boundedTrack, List.forall_mem_singleton]
    refine List.forall_mem_singleton.mpr fun hfinite ↦ ?_
    rw [hinfinite] at hfinite
    cases hfinite
  have hlost : ¬∀ s ∈ (boundedTrack (1 / 0)).slots,
      IsStorable (maxNesting - 3) s.rule.toJson s.rule.floats := by
    rw [boundedTrack, List.forall_mem_singleton]
    intro hstorable
    have hfinite := hstorable.2 (1 / 0) (List.mem_singleton_self _)
    rw [hinfinite] at hfinite
    cases hfinite
  obtain ⟨hcompact, hpretty⟩ :=
    Track.ofText?_toJson (Track.isFinite_of_mem_singles accepts_infinite.valid)
      (keepsSingle_boundedTrack (1 / 0)) hfloats
  exact ⟨accepts_infinite, keepsSingle_boundedTrack (1 / 0), hfloats, hcompact.2 hlost,
    hpretty.2 hlost⟩

end Script

end StepSequencer
