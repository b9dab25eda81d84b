import StepSequencer.Rule.Json
import StepSequencer.Track.Basic

/-!
# Tracks as JSON

The stored form of presets, slots and tracks. A preset may leave out any of its settings, and a slot
its source, its label and its preset.
-/

namespace StepSequencer

open JsonValue (tagged record text)

/-- The stored form of a preset. -/
def Preset.toJson (p : Preset) : JsonValue :=
  record (PresetKey.all.map fun key ↦ (key.name, .ofSingle (p.get key)))

/-- The settings of a preset, each from its field if that is there. -/
def Preset.ofFields? : List PresetKey → List (Option JsonValue) → Preset → Option Preset
  | key :: keys, some v :: vs, p => do
    let value ← v.toSingle?
    ofFields? keys vs (p.set key value)
  | _ :: keys, none :: vs, p => ofFields? keys vs p
  | _, _, p => some p

/-- The preset with a stored form. -/
def Preset.ofJson? : Nat → JsonValue → Option Preset
  | 0, _ => none
  | _ + 1, v => do
    let fields ← v.fields? (PresetKey.all.map PresetKey.name)
    ofFields? PresetKey.all fields .standard

/-- The stored form of a source. -/
def SampleSource.toJson : SampleSource → JsonValue
  | .folder => text "folder"
  | .bundled name => tagged "builtin" (text name)

/-- The source with a stored form. -/
def SampleSource.ofJson? : Nat → JsonValue → Option SampleSource
  | _, .string (some "folder") => some .folder
  | _ + 1, .object [(some "folder", .null)] => some .folder
  | _ + 1, .object [(some "builtin", v)] => v.toText?.map .bundled
  | _, _ => none

/-- The stored form of a slot. -/
def Slot.toJson (s : Slot) : JsonValue :=
  record [("slot", .int s.id.toNat), ("source", s.source.toJson), ("label", text s.label),
    ("predicate", s.rule.toJson), ("preset", s.preset.toJson)]

/-- The slot with a stored form. -/
def Slot.ofJson? : Nat → JsonValue → Option Slot
  | 0, _ => none
  | room + 1, v =>
    match v.fields? ["slot", "source", "label", "predicate", "preset"] with
    | some [some id, source, label, some rule, preset] => do
      let id ← id.toWhole? 0 (2 ^ 16)
      let source ← JsonValue.optionalField (SampleSource.ofJson? room) .folder source
      let label ← JsonValue.optionalField JsonValue.toText? "" label
      let rule ← Rule.ofJson? room rule
      let preset ← JsonValue.optionalField (Preset.ofJson? room) .standard preset
      some ⟨UInt16.ofNat id.toNat, source, label, rule, preset⟩
    | _ => none

/-- The slots with a stored form. -/
def Slot.listOfJson? : Nat → JsonValue → Option (List Slot)
  | room + 1, .array items => items.mapM (Slot.ofJson? room)
  | _, _ => none

namespace Track

/-- The stored form of a track. -/
def toJson (t : Track) : JsonValue :=
  record [("name", text t.name), ("samples_dir", text t.samplesDir), ("bpm", .ofSingle t.bpm),
    ("downbeat_count", .int t.stepCount.toNat), ("downbeat_time", .ofSingle t.beatsPerStep),
    ("slots", .array (t.slots.map Slot.toJson))]

/-- The names of the fields of a stored track. -/
def fieldNames : List String :=
  ["name", "samples_dir", "bpm", "downbeat_count", "downbeat_time", "slots"]

/-- The track with a stored form. -/
def ofJson? : Nat → JsonValue → Option Track
  | 0, _ => none
  | room + 1, v =>
    match v.fields? fieldNames with
    | some [some name, some dir, some bpm, some steps, some beats, some slots] => do
      let name ← name.toText?
      let samplesDir ← dir.toText?
      let bpm ← bpm.toSingle?
      let steps ← steps.toWhole? 0 (2 ^ 32)
      let beatsPerStep ← beats.toSingle?
      let slots ← Slot.listOfJson? room slots
      some ⟨name, samplesDir, bpm, UInt32.ofNat steps.toNat, beatsPerStep, slots⟩
    | _ => none

/-- The track that a JSON text stores. -/
def ofText? (s : String) : Option Track := (JsonValue.parse s).bind (ofJson? maxNesting)

end Track

end StepSequencer
