import StepSequencer.CommandLine.NumberText
import StepSequencer.Track.Basic

/-!
# Command line options

The arguments of the program: flags, options that take the next argument as their value whatever it
looks like, and the path of one track. Of repeated options the last counts.
-/

namespace StepSequencer

/-- An option without a value. -/
inductive Flag where
  | help
  | dryRun
  | tui
  | grid
  deriving DecidableEq

/-- An option with a value. -/
inductive ValueOption where
  | ticks
  | samples
  | bpm
  | exportPath
  deriving DecidableEq

/-- The written form of the option. -/
def ValueOption.name : ValueOption → String
  | .ticks => "--ticks"
  | .samples => "--samples"
  | .bpm => "--bpm"
  | .exportPath => "--export"

/-- What an argument is, where no value is expected. -/
inductive Argument where
  | flag (f : Flag)
  | option (o : ValueOption)
  | unknown (name : String)
  | track (path : String)
  deriving DecidableEq

/-- Every written form of a flag. -/
def Flag.table : List (String × Flag) :=
  [("-h", .help), ("--help", .help), ("--dry-run", .dryRun), ("--tui", .tui), ("--grid", .grid)]

/-- Every option with a value, by its written form. -/
def ValueOption.table : List (String × ValueOption) :=
  [ValueOption.ticks, .samples, .bpm, .exportPath].map fun o ↦ (o.name, o)

/-- Reads an argument. What begins with two dashes is no path. -/
def Argument.ofText (text : String) : Argument :=
  match Flag.table.lookup text, ValueOption.table.lookup text with
  | some f, _ => .flag f
  | none, some o => .option o
  | none, none => if text.startsWith "--" then .unknown text else .track text

/-- Why the arguments make no options. -/
inductive OptionError where
  | needsValue (o : ValueOption)
  | badTicks (text : String) (cause : NumberTextError)
  | badBpm (text : String) (cause : NumberTextError)
  | unknown (name : String)
  | secondTrack
  | noTrack
  deriving DecidableEq

/-- The wording of the error. -/
def OptionError.message : OptionError → String
  | .needsValue o => o.name ++ " needs a value"
  | .badTicks text cause => "bad tick count " ++ text ++ ": " ++ cause.message
  | .badBpm text cause => "bad bpm " ++ text ++ ": " ++ cause.message
  | .unknown name => "unknown option " ++ name
  | .secondTrack => "only one track can be played at a time"
  | .noTrack => "no track given"

/-- What the program was asked to do. -/
structure Options where
  /-- The track's file. Only a call for help can do without. -/
  track : Option String
  help : Bool
  /-- Whether to say what would play instead of playing. -/
  dryRun : Bool
  tui : Bool
  grid : Bool
  /-- How many ticks to play, if there is a limit. -/
  ticks : Option Nat
  samples : Option String
  bpm : Option Float32
  /-- The file to save the track in. -/
  exportPath : Option String

namespace Options

/-- Nothing asked. -/
def none : Options := ⟨.none, false, false, false, false, .none, .none, .none, .none⟩

/-- The options with a flag set. -/
def setFlag (o : Options) : Flag → Options
  | .help => { o with help := true }
  | .dryRun => { o with dryRun := true }
  | .tui => { o with tui := true }
  | .grid => { o with grid := true }

/-- The options with a value set. -/
def setValue (o : Options) (option : ValueOption) (text : String) : Except OptionError Options :=
  match option with
  | .ticks =>
    ((NumberText.count text).mapError (.badTicks text)).map fun n ↦ { o with ticks := some n }
  | .samples => .ok { o with samples := some text }
  | .bpm =>
    ((NumberText.float text).mapError (.badBpm text)).map fun x ↦ { o with bpm := some x }
  | .exportPath => .ok { o with exportPath := some text }

/-- The options after some more arguments. -/
def readArguments (o : Options) : List String → Except OptionError Options
  | [] => .ok o
  | text :: rest =>
    match Argument.ofText text, rest with
    | .flag f, rest => (o.setFlag f).readArguments rest
    | .option option, [] => .error (.needsValue option)
    | .option option, value :: rest =>
      match o.setValue option value with
      | .error e => .error e
      | .ok o => o.readArguments rest
    | .unknown name, _ => .error (.unknown name)
    | .track path, rest =>
      if o.track.isSome then .error .secondTrack
      else { o with track := some path }.readArguments rest

/-- The options of a command line. -/
def ofArguments (arguments : List String) : Except OptionError Options := do
  let o ← none.readArguments arguments
  if o.track.isNone && !o.help then
    throw .noTrack
  return o

/-- Whether the run only prints or writes something and does not play. -/
def isOutputOnly (o : Options) : Bool :=
  (o.grid || o.exportPath.isSome) && !o.dryRun && !o.tui && o.ticks.isNone

/-- The track with the options' samples folder and tempo, if they are given. -/
def apply (o : Options) (t : Track) : Track :=
  { t with samplesDir := o.samples.getD t.samplesDir, bpm := o.bpm.getD t.bpm }

end Options

end StepSequencer
