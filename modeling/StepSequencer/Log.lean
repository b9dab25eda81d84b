/-!
# Log entries

What a run reports beside its result: an entry has a level, the part of the program it comes from,
and a text. Each part lists its own notices and gives each the entry it appears as.
-/

namespace StepSequencer

/-- How much an entry matters. -/
inductive LogLevel where
  | debug
  | info
  | warn
  | error
  deriving DecidableEq

/-- The written form of the level. -/
def LogLevel.text : LogLevel → String
  | .debug => "DEBUG"
  | .info => "INFO"
  | .warn => "WARN"
  | .error => "ERROR"

/-- The part of the program an entry comes from. -/
inductive LogArea where
  | program
  | script
  | scheduler
  | play
  | audio
  deriving DecidableEq

/-- The written form of the area. -/
def LogArea.text : LogArea → String
  | .program => "downbeat"
  | .script => "downbeat::script"
  | .scheduler => "downbeat::sched"
  | .play => "downbeat::play"
  | .audio => "downbeat::audio"

/-- One entry of the log. -/
structure LogEntry where
  level : LogLevel
  area : LogArea
  text : String
  deriving DecidableEq

end StepSequencer
