import StepSequencer.Files.Path
import StepSequencer.Files.Store
import StepSequencer.Sound.Sample
import StepSequencer.Track.Basic

/-!
# Sample folders

A folder's wave files, in the order of their names, are the samples of the slots: slot `k` plays the
`k`-th, and the count starts again after the last.
-/

namespace StepSequencer

/-- Why a wave file gave no sound. -/
inductive SoundFileError where
  | unreadable (path : String) (cause : FileError)
  | malformed (path : String) (cause : WaveError)
  | badValues (cause : WaveError)

/-- The wording of the error. -/
def SoundFileError.message : SoundFileError → String
  | .unreadable path cause => "could not open " ++ path ++ ": " ++ cause.message
  | .malformed path cause => "could not open " ++ path ++ ": " ++ cause.message
  | .badValues cause => cause.message

/-- Why the samples of a track were not loaded. -/
inductive SampleError where
  | unlisted (folder : String) (cause : FileError)
  | noFiles (slot : Nat)
  | notLoaded (slot : SlotId) (cause : SoundFileError)
  | engineGone

/-- The wording of the error. -/
def SampleError.message : SampleError → String
  | .unlisted folder cause => "could not list samples in " ++ folder ++ ": " ++ cause.message
  | .noFiles slot => "no .wav files to play slot " ++ toString slot
  | .notLoaded slot cause =>
    "could not load sample for slot " ++ toString slot.toNat ++ ": " ++ cause.message
  | .engineGone => "audio engine is gone"

namespace SampleFolder

/-- The wave files among the entries of a folder, sorted by name. -/
def wavePaths (folder : String) (entries : List FolderEntry) : List String :=
  let waves := entries.filter fun e ↦ e.isFile && Path.hasExtension e.name "wav"
  let names := (waves.map (·.name)).mergeSort fun a b ↦ decide (a ≤ b)
  names.map (Path.join folder)

/-- The file that a slot plays. -/
def pathForSlot (paths : List String) (slot : Nat) : Except SampleError String :=
  match paths[slot % paths.length]? with
  | some path => .ok path
  | none => .error (.noFiles slot)

/-- The sound in a file, at a rate. -/
def soundOf (rate : Nat) (path : String) (bytes : ByteArray) :
    Except SoundFileError SampleData := do
  let wave ← (Wave.ofBytes bytes).mapError (.malformed path)
  (SampleData.ofWave wave rate).mapError .badValues

variable {m : Type → Type} [Monad m]

/-- The wave files of a folder, sorted by name. -/
def index (store : FolderStore m) (folder : String) : m (Except SampleError (List String)) := do
  match ← store.list folder with
  | .error cause => return .error (.unlisted folder cause)
  | .ok entries => return .ok (wavePaths folder entries)

/-- Loads the sound of a file, at a rate. -/
def load (store : FileStore m) (rate : Nat) (path : String) :
    m (Except SoundFileError SampleData) := do
  match ← store.read path with
  | .error cause => return .error (.unreadable path cause)
  | .ok bytes => return soundOf rate path bytes

end SampleFolder

end StepSequencer
