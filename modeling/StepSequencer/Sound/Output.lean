import StepSequencer.Log
import StepSequencer.Sound.Engine

/-!
# The sound output

The device of the host calls for data again and again. Each call first hands the waiting commands to
the engine, then renders as many whole frames as the data has room for and spreads them over the
device's channels.
-/

namespace StepSequencer

/-! ### Opening the output -/

/-- How a device represents one value. -/
inductive SampleFormat where
  | int (bits : Nat)
  | unsigned (bits : Nat)
  | float (bits : Nat)
  deriving DecidableEq

/-- The name of the format. -/
def SampleFormat.name : SampleFormat → String
  | .int bits => "I" ++ toString bits
  | .unsigned bits => "U" ++ toString bits
  | .float bits => "F" ++ toString bits

/-- How a device wants its data. -/
structure OutputConfig where
  rate : Nat
  channels : Nat
  format : SampleFormat

/-- What the host answers when it is asked to open its device. -/
structure OutputHost where
  hasDevice : Bool
  config : Except String OutputConfig
  build : Except String Unit
  play : Except String Unit

/-- Why there is no output. -/
inductive OutputError where
  | noDevice
  | noConfig (cause : String)
  | unsupportedFormat (format : SampleFormat)
  | notBuilt (cause : String)
  | notPlaying (cause : String)

/-- The wording of the error. -/
def OutputError.message : OutputError → String
  | .noDevice => "no default output device"
  | .noConfig cause => "no default output config: " ++ cause
  | .unsupportedFormat format =>
    "unsupported sample format " ++ format.name ++ " (only f32 supported for now)"
  | .notBuilt cause => cause
  | .notPlaying cause => "failed to play output stream: " ++ cause

/-- What the output says. -/
inductive OutputNotice where
  | opened (rate channels : Nat)
  | streamFailed (cause : String)

/-- The log entry of the notice. -/
def OutputNotice.entry : OutputNotice → LogEntry
  | .opened rate channels =>
    ⟨.info, .audio, "output at " ++ toString rate ++ " Hz, " ++ toString channels ++ " channels"⟩
  | .streamFailed cause => ⟨.error, .audio, "output stream error: " ++ cause⟩

/-- An open output. -/
structure Output where
  config : OutputConfig
  engine : Engine
  /-- The frames of the last block, kept so that a block need not be made anew. -/
  scratch : List Frame

namespace Output

/-- The room for frames that an output starts with. -/
def initialScratch : Nat := 4096

/-- Opens the host's device, with what is logged on the way. -/
def openHost (h : OutputHost) : Except OutputError Output × List LogEntry :=
  if !h.hasDevice then (.error .noDevice, [])
  else match h.config with
    | .error cause => (.error (.noConfig cause), [])
    | .ok config =>
      let result : Except OutputError Output := do
        unless config.format = .float 32 do
          throw (.unsupportedFormat config.format)
        h.build.mapError .notBuilt
        h.play.mapError .notPlaying
        return ⟨config, .silent, List.replicate initialScratch .silent⟩
      (result, [(OutputNotice.opened config.rate config.channels).entry])

/-! ### Filling the device's data -/

/-- The scratch frames, at least `count` of them. -/
def grown (scratch : List Frame) (count : Nat) : List Frame :=
  scratch ++ List.replicate (count - scratch.length) .silent

/-- The whole frames there is room for. -/
def frameCount (channels size : Nat) : Nat := size / max channels 1

/-- The output after a call of the device, and the device's data. -/
def fill (o : Output) (commands : List SoundCommand) (data : List Float32) :
    Output × List Float32 :=
  let engine := commands.foldl Engine.handle o.engine
  let count := frameCount o.config.channels data.length
  let scratch := grown o.scratch count
  let (engine, frames) := engine.render (scratch.take count)
  ({ o with engine := engine, scratch := frames ++ scratch.drop count },
    interleave o.config.channels frames data)

end Output

end StepSequencer
