import StepSequencer.Number.Layout

/-!
# Presets

How a slot's sample is played: where it starts and the shape of its loudness. Durations are in
beats, the start is a fraction of the sample. A sample line gives a preset as named options; without
an option for the decay level, the decay ends at the sustain level.
-/

namespace StepSequencer

/-- The settings a slot plays with. -/
structure Preset where
  start : Float32
  attack : Float32
  attackLevel : Float32
  decay : Float32
  decayLevel : Float32
  /-- Negative to hold until the sample runs out. -/
  sustain : Float32
  sustainLevel : Float32
  release : Float32
  deriving BEq

/-- The name of one setting. -/
inductive PresetKey where
  | start
  | attack
  | attackLevel
  | decay
  | decayLevel
  | sustain
  | sustainLevel
  | release
  deriving DecidableEq

namespace PresetKey

/-- Every setting, in writing order. -/
def all : List PresetKey :=
  [.start, .attack, .attackLevel, .decay, .decayLevel, .sustain, .sustainLevel, .release]

/-- The written name. -/
def name : PresetKey → String
  | .start => "start"
  | .attack => "attack"
  | .attackLevel => "attack_level"
  | .decay => "decay"
  | .decayLevel => "decay_level"
  | .sustain => "sustain"
  | .sustainLevel => "sustain_level"
  | .release => "release"

/-- The setting with a written name. -/
def ofName? (name : String) : Option PresetKey :=
  all.find? fun key ↦ key.name == name

end PresetKey

/-- Why a preset cannot be played. -/
inductive PresetError where
  | startOutside (value : Float32)
  | negative (key : PresetKey) (value : Float32)
  | sustainNotFinite

/-- The wording of the error. -/
def PresetError.message : PresetError → String
  | .startOutside value => "start must be within 0..1, got " ++ NumberLayout.plain.single value
  | .negative key value =>
    key.name ++ " must be a non-negative number, got " ++ NumberLayout.plain.single value
  | .sustainNotFinite => "sustain must be finite"

namespace Preset

/-- The whole sample at full level. -/
def standard : Preset where
  start := 0
  attack := 0
  attackLevel := 1
  decay := 0
  decayLevel := 1
  sustain := -1
  sustainLevel := 1
  release := 0

/-- The value of a setting. -/
def get (p : Preset) : PresetKey → Float32
  | .start => p.start
  | .attack => p.attack
  | .attackLevel => p.attackLevel
  | .decay => p.decay
  | .decayLevel => p.decayLevel
  | .sustain => p.sustain
  | .sustainLevel => p.sustainLevel
  | .release => p.release

/-- The preset with one setting changed. -/
def set (p : Preset) (key : PresetKey) (value : Float32) : Preset :=
  match key with
  | .start => { p with start := value }
  | .attack => { p with attack := value }
  | .attackLevel => { p with attackLevel := value }
  | .decay => { p with decay := value }
  | .decayLevel => { p with decayLevel := value }
  | .sustain => { p with sustain := value }
  | .sustainLevel => { p with sustainLevel := value }
  | .release => { p with release := value }

/-- The preset after one option, and whether the option's name is known. -/
def setNamed? (p : Preset) (name : String) (value : Float32) : Option Preset :=
  (PresetKey.ofName? name).map (p.set · value)

/-- The preset of a list of options, of which the last for a setting counts. Without an option for
the decay level, the decay ends at the sustain level. -/
def ofOptions (options : List (String × Float32)) : Preset :=
  let p := options.foldl (fun p (name, value) ↦ (p.setNamed? name value).getD p) standard
  if options.any (·.1 == PresetKey.decayLevel.name) then p
  else p.set .decayLevel p.sustainLevel

/-- The names among the options that no setting has, in order. -/
def unknownOptions (options : List (String × Float32)) : List String :=
  (options.map (·.1)).filter fun name ↦ (PresetKey.ofName? name).isNone

/-- The settings that must be finite and not negative, in checking order. -/
def nonnegativeKeys : List PresetKey :=
  [.attack, .decay, .release, .attackLevel, .decayLevel, .sustainLevel]

/-- Refuses a preset that cannot be played. -/
def validate (p : Preset) : Except PresetError Unit := do
  unless 0 ≤ p.start && p.start ≤ 1 do
    throw (.startOutside p.start)
  for key in nonnegativeKeys do
    let value := p.get key
    if !value.isFinite || value < 0 then
      throw (.negative key value)
  unless p.sustain.isFinite do
    throw .sustainNotFinite

end Preset

end StepSequencer
