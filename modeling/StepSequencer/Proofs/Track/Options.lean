import Mathlib.Data.List.Basic
import Mathlib.Data.List.Induction
import StepSequencer.Proofs.Entries
import StepSequencer.Track.Preset

/-!
# Options in any order

A sample line gives a preset as options, each a name and a value. `Preset.lastValue?` is the last
value that the options give for a name. It decides what each setting is (`get_ofOptions`), also for
the decay level, which without an option of its own is the sustain level that came out in the end.

What is the last option of a name does not depend on the options of other names. So the order of
options with different names shows in nothing but the order of the names that no setting has
(`readAlike_of_perm`).
-/

namespace StepSequencer

/-! ### Names of settings -/

namespace PresetKey

theorem mem_all (key : PresetKey) : key ∈ all := by
  cases key <;> decide

theorem name_injective : Function.Injective name := by
  intro a b h
  cases a <;> cases b <;> first | rfl | exact absurd h (by decide)

theorem ofName?_name (key : PresetKey) : ofName? key.name = some key := by
  cases key <;> rfl

theorem ofName?_eq_some_iff {s : String} {key : PresetKey} :
    ofName? s = some key ↔ s = key.name := by
  constructor
  · intro h
    rw [ofName?] at h
    exact (eq_of_beq (List.find?_some h :)).symm
  · rintro rfl
    exact ofName?_name key

theorem ofName?_eq_none_iff {s : String} : ofName? s = none ↔ s ∉ all.map name := by
  rw [ofName?, List.find?_eq_none, List.mem_map, not_exists]
  exact forall_congr' fun key ↦ by rw [beq_iff_eq, not_and]

end PresetKey

namespace Preset

/-! ### Settings -/

theorem get_set (p : Preset) (key other : PresetKey) (value : Float32) :
    (p.set key value).get other = if key = other then value else p.get other := by
  cases key <;> cases other <;> rfl

/-- A preset is what its settings are. -/
theorem eq_of_get {p q : Preset} (h : ∀ key, p.get key = q.get key) : p = q := by
  obtain ⟨_, _, _, _, _, _, _, _⟩ := p
  obtain ⟨_, _, _, _, _, _, _, _⟩ := q
  exact (Preset.mk.injEq ..).mpr ⟨h .start, h .attack, h .attackLevel, h .decay, h .decayLevel,
    h .sustain, h .sustainLevel, h .release⟩

/-! ### The last option of a name -/

/-- The last value that the options give for a name, if they give one. -/
def lastValue? (options : List (String × Float32)) (name : String) : Option Float32 :=
  (options.filter (·.1 == name)).getLast?.map (·.2)

variable {options options' : List (String × Float32)}

theorem lastValue?_concat (options : List (String × Float32)) (option : String × Float32)
    (name : String) : lastValue? (options ++ [option]) name =
      if option.1 = name then some option.2 else lastValue? options name := by
  obtain ⟨other, value⟩ := option
  split
  · next h =>
    obtain rfl : other = name := h
    exact Entries.last?_concat_self options other value
  · next h => exact Entries.last?_concat_of_ne h options value

/-- Some option has a name exactly if the name has a last value. -/
theorem any_eq_isSome_lastValue? (options : List (String × Float32)) (name : String) :
    options.any (·.1 == name) = (lastValue? options name).isSome := by
  rw [lastValue?, Option.isSome_map, Bool.eq_iff_iff, List.getLast?_isSome, List.any_eq_true, ne_eq,
    List.filter_eq_nil_iff, not_forall₂]
  simp

/-- The options one after the other, each over the ones before. -/
def applied (options : List (String × Float32)) : Preset :=
  options.foldl (fun p (name, value) ↦ (p.setNamed? name value).getD p) standard

theorem get_applied (options : List (String × Float32)) (key : PresetKey) :
    (applied options).get key = (lastValue? options key.name).getD (standard.get key) := by
  induction options using List.reverseRecOn with
  | nil => rfl
  | append_singleton options option ih =>
    obtain ⟨name, value⟩ := option
    have hstep : applied (options ++ [(name, value)]) =
        ((applied options).setNamed? name value).getD (applied options) := List.foldl_append
    rw [hstep, lastValue?_concat, setNamed?]
    rcases hname : PresetKey.ofName? name with - | other
    · have hne : name ≠ key.name := fun heq ↦
        PresetKey.ofName?_eq_none_iff.mp hname (heq ▸ List.mem_map_of_mem key.mem_all)
      rw [if_neg hne]
      exact ih
    · obtain rfl := PresetKey.ofName?_eq_some_iff.mp hname
      show ((applied options).set other value).get key = _
      rw [get_set]
      by_cases hkey : other = key
      · rw [if_pos hkey, if_pos (congrArg PresetKey.name hkey)]
        rfl
      · rw [if_neg hkey, if_neg (PresetKey.name_injective.ne hkey)]
        exact ih

theorem ofOptions_eq (options : List (String × Float32)) : ofOptions options =
    if (lastValue? options PresetKey.decayLevel.name).isSome then applied options
    else (applied options).set .decayLevel (applied options).sustainLevel := by
  rw [← any_eq_isSome_lastValue?]
  rfl

/-- Each setting but the decay level has its last value, or else its standard one. -/
theorem get_ofOptions {key : PresetKey} (h : key ≠ .decayLevel) :
    (ofOptions options).get key = (lastValue? options key.name).getD (standard.get key) := by
  rw [ofOptions_eq, ← get_applied]
  split
  · rfl
  · rw [get_set, if_neg h.symm]

/-- The decay level has its last value, or else that of the sustain level. -/
theorem decayLevel_ofOptions : (ofOptions options).decayLevel =
    (lastValue? options PresetKey.decayLevel.name).getD (ofOptions options).sustainLevel := by
  rw [ofOptions_eq]
  split
  · next h =>
    obtain ⟨value, hvalue⟩ := Option.isSome_iff_exists.mp h
    rw [hvalue]
    exact (get_applied options .decayLevel).trans (by rw [hvalue]; rfl)
  · next h =>
    rw [Option.not_isSome_iff_eq_none.mp h]
    rfl

/-- A preset depends on nothing but the last values. -/
theorem ofOptions_congr
    (h : ∀ key : PresetKey, lastValue? options' key.name = lastValue? options key.name) :
    ofOptions options' = ofOptions options := by
  have hother (key : PresetKey) (hkey : key ≠ .decayLevel) :
      (ofOptions options').get key = (ofOptions options).get key := by
    rw [get_ofOptions hkey, get_ofOptions hkey, h]
  refine eq_of_get fun key ↦ ?_
  by_cases hkey : key = .decayLevel
  · subst hkey
    have hsustain : (ofOptions options').sustainLevel = (ofOptions options).sustainLevel :=
      hother .sustainLevel (by decide)
    show (ofOptions options').decayLevel = (ofOptions options).decayLevel
    rw [decayLevel_ofOptions, decayLevel_ofOptions, hsustain, h]
  · exact hother key hkey

/-! ### Reordered options -/

/-- The options give the same preset, and the names that no setting has are the same up to order. -/
def ReadAlike (options options' : List (String × Float32)) : Prop :=
  ofOptions options' = ofOptions options ∧ (unknownOptions options').Perm (unknownOptions options)

/-- Options in another order, in which those of one name keep theirs. -/
theorem readAlike_of_perm (hperm : options'.Perm options)
    (h : ∀ name, options'.filter (·.1 == name) = options.filter (·.1 == name)) :
    ReadAlike options options' := by
  refine ⟨ofOptions_congr fun key ↦ ?_, (hperm.map _).filter _⟩
  rw [lastValue?, lastValue?, h]

end Preset

/-! ### Written presets -/

namespace Script

/-- The options of a written preset, as numbers. -/
def writtenOptions (p : Preset) (keys : List PresetKey) : List (String × Float32) :=
  keys.map fun key ↦ (key.name, p.get key)

theorem unknownOptions_written (p : Preset) (keys : List PresetKey) :
    Preset.unknownOptions (writtenOptions p keys) = [] := by
  rw [Preset.unknownOptions, List.filter_eq_nil_iff, writtenOptions, List.map_map]
  refine List.forall_mem_map.mpr fun key _ ↦ ?_
  show ¬(PresetKey.ofName? key.name).isNone = true
  rw [PresetKey.ofName?_name]
  exact Bool.false_ne_true

/-- A written setting has the value that was written, however often it was. -/
theorem lastValue?_writtenOptions (p : Preset) {keys : List PresetKey} {key : PresetKey}
    (h : key ∈ keys) : Preset.lastValue? (writtenOptions p keys) key.name = some (p.get key) := by
  induction keys using List.reverseRecOn with
  | nil => cases h
  | append_singleton keys other ih =>
    have hconcat : writtenOptions p (keys ++ [other]) =
        writtenOptions p keys ++ [(other.name, p.get other)] := List.map_append
    rw [hconcat, Preset.lastValue?_concat]
    by_cases hkey : other = key
    · rw [if_pos (congrArg PresetKey.name hkey), hkey]
    · rw [if_neg (PresetKey.name_injective.ne hkey)]
      exact ih ((List.mem_append.mp h).resolve_right fun hlast ↦
        hkey (List.mem_singleton.mp hlast).symm)

/-- All settings, given as options in whatever order, make up the preset. -/
theorem ofOptions_written (p : Preset) {keys : List PresetKey} (h : ∀ key, key ∈ keys) :
    Preset.ofOptions (writtenOptions p keys) = p := by
  refine Preset.eq_of_get fun key ↦ ?_
  by_cases hkey : key = .decayLevel
  · subst hkey
    exact Preset.decayLevel_ofOptions.trans (by rw [lastValue?_writtenOptions p (h _)]; rfl)
  · rw [Preset.get_ofOptions hkey, lastValue?_writtenOptions p (h key), Option.getD_some]

end Script

namespace Preset

open Entries (filter_eq_of_nodup)

/-- **Options.** Each setting has the last value that the options give for it, or else its standard
one, but the decay level without an option is the sustain level. The names that no setting has come
back in order, repetitions included. Reordering options shows in nothing but the order of those
names, as long as the options of one name keep their order. All settings of a preset, as options in
whatever order, give the preset back. -/
theorem ofOptions_orderless (options : List (String × Float32)) :
    (∀ key ≠ .decayLevel,
      (ofOptions options).get key = (lastValue? options key.name).getD (standard.get key)) ∧
    (ofOptions options).decayLevel =
      (lastValue? options PresetKey.decayLevel.name).getD (ofOptions options).sustainLevel ∧
    unknownOptions options =
      (options.map Prod.fst).filter (fun name ↦ name ∉ PresetKey.all.map PresetKey.name) ∧
    (∀ options', options'.Perm options → (options.map Prod.fst).Nodup →
      ReadAlike options options') ∧
    (∀ options', options'.Perm options →
      (∀ name, options'.filter (·.1 == name) = options.filter (·.1 == name)) →
      ReadAlike options options') ∧
    ∀ p (keys : List PresetKey), keys.Perm PresetKey.all →
      ofOptions (keys.map fun key ↦ (key.name, p.get key)) = p ∧
      unknownOptions (keys.map fun key ↦ (key.name, p.get key)) = [] := by
  refine ⟨fun key hkey ↦ get_ofOptions hkey, decayLevel_ofOptions, ?_,
    fun options' hperm hnodup ↦ readAlike_of_perm hperm (filter_eq_of_nodup hperm hnodup),
    fun options' hperm hsame ↦ readAlike_of_perm hperm hsame, fun p keys hkeys ↦ ⟨?_, ?_⟩⟩
  · refine List.filter_congr fun name _ ↦ ?_
    rw [Bool.eq_iff_iff, Option.isNone_iff_eq_none, decide_eq_true_iff]
    exact PresetKey.ofName?_eq_none_iff
  · exact Script.ofOptions_written p fun key ↦ hkeys.mem_iff.mpr key.mem_all
  · exact Script.unknownOptions_written p keys

/-- Two names that no setting has, brought before and after a sustain level that the decay level
follows; a setting given twice, between which another one moves; and a preset given backwards. -/
theorem ofOptions_orderless_moved :
    let options : List (String × Float32) := [("amp", 2), ("sustain_level", 0.5), ("pan", 1)]
    let moved : List (String × Float32) := [("pan", 1), ("amp", 2), ("sustain_level", 0.5)]
    let twice : List (String × Float32) := [("start", 0.5), ("start", 0.25), ("decay_level", 1)]
    let between : List (String × Float32) := [("start", 0.5), ("decay_level", 1), ("start", 0.25)]
    (moved.Perm options ∧ (options.map Prod.fst).Nodup ∧ ReadAlike options moved ∧
      (ofOptions options).decayLevel = 0.5 ∧ unknownOptions options = ["amp", "pan"]) ∧
    (between.Perm twice ∧
      (∀ name, between.filter (·.1 == name) = twice.filter (·.1 == name)) ∧
      ReadAlike twice between ∧ (ofOptions twice).start = 0.25) ∧
    (PresetKey.all.reverse.Perm PresetKey.all ∧
      ofOptions (PresetKey.all.reverse.map fun key ↦ (key.name, standard.get key)) = standard) := by
  intro options moved twice between
  obtain ⟨-, hdecay, hunknown, hnodup, -, hwritten⟩ := ofOptions_orderless options
  obtain ⟨hget, -, -, -, hsame, -⟩ := ofOptions_orderless twice
  have hmoved : moved.Perm options := .trans (.swap _ _ _) (.cons _ (.swap _ _ _))
  have hnames : (options.map Prod.fst).Nodup := by decide
  have hbetween : between.Perm twice := .cons _ (.swap _ _ _)
  have hfilter (name : String) : between.filter (·.1 == name) = twice.filter (·.1 == name) := by
    simp only [between, twice, List.filter_cons, List.filter_nil]
    grind
  have hreverse : PresetKey.all.reverse.Perm PresetKey.all := List.reverse_perm _
  exact ⟨⟨hmoved, hnames, hnodup moved hmoved hnames, hdecay.trans rfl, hunknown.trans (by decide)⟩,
    ⟨hbetween, hfilter, hsame between hbetween hfilter, (hget .start (by decide)).trans rfl⟩,
    ⟨hreverse, (hwritten standard _ hreverse).1⟩⟩

end Preset

end StepSequencer
