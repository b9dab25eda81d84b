import Std.Time.Format
import StepSequencer.CommandLine.Program

/-!
# The command line program

The host's side of a run: its files, its clock, and the two streams for what is printed and what is
said. What a run does is decided by `Program`.
-/

namespace StepSequencer.Host

/-! ### Files -/

/-- The host's number for an error, which can come with either sign. -/
def errorNumber (code : UInt32) : Nat := min code.toNat (-code).toNat

/-- Why the host refused a file. -/
def fileError : IO.Error → FileError
  | .noFileOrDirectory .. => .notFound
  | .alreadyExists .. => .exists
  | .inappropriateType _ code details =>
    match errorNumber code with
    | 20 => .notFolder
    | 21 => .isFolder
    | n => .other (details ++ " (os error " ++ toString n ++ ")")
  | .permissionDenied .. => .other "Permission denied (os error 13)"
  | e => .other (toString e)

/-- The result of an action on the host's files. -/
def attempt {α : Type} (action : IO α) : IO (Except FileError α) := do
  match ← action.toBaseIO with
  | .ok a => return .ok a
  | .error e => return .error (fileError e)

/-- The host's files. -/
def files : FileStore IO where
  read path := attempt (IO.FS.readBinFile path)
  makeFolders path := attempt (IO.FS.createDirAll path)
  write path bytes := attempt (IO.FS.writeBinFile path bytes)

/-! ### What is said -/

/-- The time of day at the zero meridian. -/
def timeText : IO String := do
  let now ← Std.Time.Timestamp.now
  let time := Std.Time.DateTime.ofTimestampWithZone now Std.Time.TimeZone.UTC
  return time.format "uuuu-MM-dd'T'HH:mm:ss.SSS'Z'"

/-- Says an entry of the log, if it is shown. -/
def say (o : Options) (e : LogEntry) : IO Unit := do
  if Program.isShown o e then
    let level := if e.level.text.length < 5 then e.level.text ++ " " else e.level.text
    IO.eprintln ("[" ++ (← timeText) ++ " " ++ level ++ " " ++ e.area.text ++ "] " ++ e.text)

/-! ### Playing -/

/-- Waits until a moment, in nanoseconds of the host's clock. -/
def waitUntil (moment : Nat) : IO Unit := do
  let now ← IO.monoNanosNow
  if now < moment then
    IO.sleep (UInt32.ofNat ((moment - now + 999999) / 1000000))

/-- Says what is new in the log of a run, and forgets it. -/
def flushLog (o : Options) (r : Run Nat) : IO (Run Nat) := do
  r.log.forM (say o)
  return { r with log := [] }

/-- Plays a dry run to its end. Deadlines are a fixed interval apart, but missed
ones are skipped. -/
partial def announce (o : Options) (r : Run Nat) (next : Nat) : IO Unit := do
  let r ← flushLog o r
  match r.state with
  | .ended _ => return
  | _ =>
    waitUntil next
    let interval := r.scheduler.interval.nanoseconds
    let r := (r.handle .dryRun .deadline).checkLimit o.ticks
    let now ← IO.monoNanosNow
    if next + 2 * interval < now then
      let r ← flushLog o r
      say o (SchedulerNotice.fellBehind ⟨now - (next + interval)⟩).entry
      announce o r now
    else
      announce o r (next + interval)

/-- Plays what was prepared, and tells the exit code. -/
def finish (o : Options) (p : Preparation) : IO UInt32 := do
  p.log.forM (say o)
  IO.print p.output
  match p.task with
  | .error h =>
    let result := ProgramResult.stopped p h
    IO.eprint result.complaint
    return UInt32.ofNat result.code
  | .ok .finished => return 0
  | .ok (.announce s limit) =>
    announce o ((Run.start s 0).checkLimit limit) (← IO.monoNanosNow)
    return 0

end StepSequencer.Host

open StepSequencer

/-- Runs the program with the arguments of its command line. -/
def main (arguments : List String) : IO UInt32 := do
  match Options.ofArguments arguments with
  | .error e =>
    let result := ProgramResult.misused e
    IO.eprint result.complaint
    return UInt32.ofNat result.code
  | .ok o =>
    if o.help then
      IO.print ProgramResult.help.output
      return 0
    else
      Host.finish o (← Program.prepare Host.files o)
