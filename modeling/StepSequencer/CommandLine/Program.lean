import StepSequencer.CommandLine.Options
import StepSequencer.Playback.Run
import StepSequencer.Screen.TextGrid
import StepSequencer.Sound.Output
import StepSequencer.Track.File

/-!
# The program

A run of the program loads a track, saves and prints it as asked, and plays it. What it does is a
value of the library; the host only reads and writes its files, waits for the ticks, and shows what
is said.
-/

namespace StepSequencer

/-- The line that shows how the program is called. -/
def usage : String :=
  "usage: downbeat <track.rb|track.json> [--dry-run] [--tui] [--ticks N] [--grid] [--samples DIR]"
    ++ " [--bpm N] [--export PATH]"

/-- Why a run failed. -/
inductive ProgramError where
  | load (cause : LoadError)
  | track (cause : TrackError)
  | save (cause : SaveError)
  | output (cause : OutputError)
  /-- The screen needs a terminal. -/
  | noTerminal

/-- The wording of the error. -/
def ProgramError.message : ProgramError → String
  | .load cause => cause.message
  | .track cause => cause.message
  | .save cause => cause.message
  | .output cause => cause.message
  | .noTerminal => "No such device or address (os error 6)"

/-- What the program says. -/
inductive ProgramNotice where
  | loaded (t : Track)
  | wrote (path : String)

/-- The log entry of the notice. -/
def ProgramNotice.entry : ProgramNotice → LogEntry
  | .loaded t =>
    ⟨.info, .program, t.name ++ ": " ++ toString t.slots.length ++ " slots, "
      ++ toString t.stepCount.toNat ++ " steps of " ++ NumberLayout.plain.single t.beatsPerStep
      ++ " beats at " ++ NumberLayout.plain.single t.bpm ++ " bpm"⟩
  | .wrote path => ⟨.info, .program, "wrote " ++ path⟩

/-- What is left to do after the files and the grid. -/
inductive Task where
  | finished
  /-- To say what would play, for some ticks or for ever. -/
  | announce (scheduler : Scheduler) (limit : Option Nat)

/-- A run up to the point where playing would start. -/
structure Preparation where
  log : List LogEntry
  output : String
  task : Except (Halt ProgramError) Task

namespace Preparation

/-- Adds log entries in front. -/
def after (p : Preparation) (log : List LogEntry) : Preparation := { p with log := log ++ p.log }

/-- A run that ends early. -/
def stopped (h : Halt ProgramError) : Preparation := ⟨[], "", .error h⟩

end Preparation

namespace Program

/-- The task of playing a track. There is neither a device nor a terminal to play on. -/
def playing (o : Options) (t : Track) : Except (Halt ProgramError) Task :=
  if o.isOutputOnly then .ok .finished
  else if !o.dryRun then .error (.refused (.output .noDevice))
  else if o.tui then .error (.refused .noTerminal)
  else ((Scheduler.ofTrack t).mapError (.refused ∘ .track)).map (.announce · o.ticks)

/-- The text that is printed of a track. -/
def printed (o : Options) (t : Track) : String :=
  if o.grid then Screen.textGrid t.slots (t.grid t.stepCount.toNat) else ""

variable {m : Type → Type} [Monad m] (store : FileStore m)

/-- Goes on with a track that can be played. -/
def useTrack (o : Options) (t : Track) : m Preparation := do
  let rest : Preparation := ⟨[], printed o t, playing o t⟩
  match o.exportPath with
  | none => return rest
  | some path =>
    match ← t.save store path with
    | .error h => return .stopped (h.map .save)
    | .ok () => return rest.after [(ProgramNotice.wrote path).entry]

/-- Prepares what the options ask for. -/
def prepare (o : Options) : m Preparation := do
  let (loaded, log) ← Track.load store (o.track.getD "")
  match loaded with
  | .error h => return (Preparation.stopped (h.map .load)).after log
  | .ok t =>
    let t := o.apply t
    match t.validate with
    | .error e => return (Preparation.stopped (.refused (.track e))).after log
    | .ok () => return (← useTrack store o t).after (log ++ [(ProgramNotice.loaded t).entry])

/-- Whether an entry is shown. The screen needs the terminal for itself, so nothing is
shown beside it. -/
def isShown (o : Options) (e : LogEntry) : Bool := !o.tui && e.level != .debug

/-- The run of a dry run's ticks, up to a limit. -/
def announced (s : Scheduler) (limit : Nat) : Run Nat :=
  Run.ofEvents .dryRun (some limit) s 0 (List.replicate limit .deadline)

end Program

/-! ### Whole runs -/

/-- What a run leaves behind beside its files. -/
structure ProgramResult where
  code : Nat
  output : String
  /-- What is complained about. -/
  complaint : String
  log : List LogEntry

namespace ProgramResult

/-- The result of a call for help. -/
def help : ProgramResult := ⟨0, usage ++ "\n", "", []⟩

/-- The result of arguments that make no options. -/
def misused (e : OptionError) : ProgramResult :=
  ⟨2, "", "Error: " ++ e.message ++ "\n" ++ usage ++ "\n", []⟩

/-- The result of a run that ends early: for a cause that it shows, or aborted. -/
def stopped (p : Preparation) : Halt ProgramError → ProgramResult
  | .refused cause => ⟨1, p.output, "Error: " ++ cause.message ++ "\n", p.log⟩
  | .aborted operation => ⟨101, p.output, operation.message ++ "\n", p.log⟩

/-- The result of a run that ends well. -/
def succeeded (p : Preparation) (log : List LogEntry) : ProgramResult :=
  ⟨0, p.output, "", p.log ++ log⟩

/-- The result of a prepared run, unless it plays for ever. -/
def ofPreparation? (p : Preparation) : Option ProgramResult :=
  match p.task with
  | .error h => some (stopped p h)
  | .ok .finished => some (succeeded p [])
  | .ok (.announce s (some limit)) => some (succeeded p (Program.announced s limit).log)
  | .ok (.announce _ none) => none

end ProgramResult

/-- The result of a run with some arguments, unless it plays for ever. -/
def Program.run? {m : Type → Type} [Monad m] (store : FileStore m) (arguments : List String) :
    m (Option ProgramResult) := do
  match Options.ofArguments arguments with
  | .error e => return some (.misused e)
  | .ok o =>
    if o.help then return some .help
    let p ← prepare store o
    return (ProgramResult.ofPreparation? p).map fun r ↦ { r with log := r.log.filter (isShown o) }

end StepSequencer
