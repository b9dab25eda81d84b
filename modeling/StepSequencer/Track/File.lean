import StepSequencer.Files.Path
import StepSequencer.Files.Store
import StepSequencer.Script.Reading
import StepSequencer.Script.Writer
import StepSequencer.Track.Json

/-!
# Track files

A track is stored as JSON if its file's extension says so, and as a script otherwise. A track that
was loaded is one that can be played.

Reading a script and writing one can abort the program, which no error of a file stands for.
-/

namespace StepSequencer

/-- Why a track was not loaded. -/
inductive LoadError where
  | unreadable (path : String) (cause : FileError)
  | badJson (path : String)
  | badScript (path : String) (cause : Script.ReadError)
  | unplayable (cause : TrackError)

/-- The wording of the error. -/
def LoadError.message : LoadError → String
  | .unreadable path cause => "could not read " ++ path ++ ": " ++ cause.message
  | .badJson path => path ++ " is not a valid track"
  | .badScript path cause => "could not read script " ++ path ++ ": " ++ cause.message
  | .unplayable cause => cause.message

/-- Why a track was not saved. -/
inductive SaveError where
  | noFolder (cause : FileError)
  | unwritable (path : String) (cause : FileError)

/-- The wording of the error. -/
def SaveError.message : SaveError → String
  | .noFolder cause => cause.message
  | .unwritable path cause => "could not write " ++ path ++ ": " ++ cause.message

namespace Track

/-- Whether a file holds JSON. -/
def isJsonFile (path : String) : Bool := Path.hasExtension path "json"

/-- The track in a file's text, and what the reader says. A script without a name
gets the file's. -/
def ofFileText (path text : String) : Except (Halt LoadError) Track × List LogEntry :=
  if isJsonFile path then
    match ofText? text with
    | some t => (.ok t, [])
    | none => (.error (.refused (.badJson path)), [])
  else
    let (result, notices) := Script.readTrack text (Path.stem path)
    (result.mapError (Halt.map (.badScript path)), notices.map (·.entry))

/-- The playable track in a file, and what the reader says. -/
def ofFile (path : String) (bytes : ByteArray) : Except (Halt LoadError) Track × List LogEntry :=
  match String.fromUTF8? bytes with
  | none => (.error (.refused (.unreadable path .notText)), [])
  | some text =>
    let (result, log) := ofFileText path text
    (result.bind fun t ↦ (t.validate.mapError (.refused ∘ .unplayable)).map fun _ ↦ t, log)

/-- The text that a file holds for the track. -/
def fileText (t : Track) (path : String) : Except Overflow String :=
  if isJsonFile path then .ok t.toJson.pretty else Script.write t

variable {m : Type → Type} [Monad m] (store : FileStore m)

/-- Loads a track. -/
def load (path : String) : m (Except (Halt LoadError) Track × List LogEntry) := do
  match ← store.read path with
  | .error cause => return (.error (.refused (.unreadable path cause)), [])
  | .ok bytes => return ofFile path bytes

/-- Saves a track, in a folder that is made if it is missing. -/
def save (t : Track) (path : String) : m (Except (Halt SaveError) Unit) := do
  let made ← match Path.parent? path with
    | some folder => if folder == "" then pure (.ok ()) else store.makeFolders folder
    | none => pure (.ok ())
  match made with
  | .error cause => return .error (.refused (.noFolder cause))
  | .ok () =>
    match t.fileText path with
    | .error operation => return .error (.aborted operation)
    | .ok text => return (← store.write path text.toUTF8).mapError (.refused ∘ .unwritable path)

end Track

end StepSequencer
