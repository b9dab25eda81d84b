import StepSequencer.Playback.Player
import StepSequencer.Playback.SampleFolder
import StepSequencer.Sound.Engine

/-!
# The sample player

The sample player plays through a sound engine that it reaches by a channel. When it is made it
loads the sample of each of the track's folder slots and registers it with the engine. Bundled
samples have no sound here and stay silent.
-/

namespace StepSequencer

/-- A player and its way to the engine. -/
structure SamplePlayer where
  rate : Nat
  secondsPerBeat : Float
  /-- The registered samples, by slot. -/
  loaded : List (SlotId × SampleId)
  channel : Channel SoundCommand

/-- What the sample player says. -/
inductive SampleNotice where
  | silentBundle (name : String)
  | loaded (slot : SlotId) (path : String) (frames : Nat)
  | ready (count : Nat) (folder : String)
  | skipped (step : Nat) (name : String)

namespace SampleNotice

/-- How much the notice matters. -/
def level : SampleNotice → LogLevel
  | .silentBundle _ => .warn
  | .ready .. => .info
  | .loaded .. | .skipped .. => .debug

/-- The wording of the notice. -/
def text : SampleNotice → String
  | .silentBundle name => "no audio for bundled sample :" ++ name ++ ", it will stay silent"
  | .loaded slot path frames =>
    "slot " ++ toString slot.toNat ++ " -> " ++ path ++ " (" ++ toString frames ++ " frames)"
  | .ready count folder => "loaded " ++ toString count ++ " samples from " ++ folder
  | .skipped step name => "step " ++ toString step ++ ": skipping bundled :" ++ name

/-- The log entry of the notice. -/
def entry (n : SampleNotice) : LogEntry := ⟨n.level, .audio, n.text⟩

end SampleNotice

namespace SamplePlayer

/-! ### Loading -/

/-- The slots that play from the folder, each once, in the order of first appearance. -/
def folderSlots (t : Track) : List SlotId :=
  ((t.slots.filter fun s ↦ s.source.isFolder).map (·.id)).eraseDups

/-- The notices about the slots that stay silent. -/
def silentSlots (t : Track) : List SampleNotice :=
  (t.slots.filterMap fun s ↦ s.source.bundledName?).map .silentBundle

/-- Hands a loaded sample to the engine, under a number that no other sample of the player has. -/
def register (p : SamplePlayer) (slot : SlotId) (data : SampleData) :
    Except SampleError SamplePlayer :=
  let id := p.loaded.length
  if p.channel.isOpen then
    .ok { p with
      loaded := p.loaded ++ [(slot, id)]
      channel := p.channel.push (.register id data) }
  else .error .engineGone

variable {m : Type → Type} [Monad m] (fetch : String → m (Except SoundFileError SampleData))

/-- Loads the samples of some slots, one after the other, with what is said on the way. -/
def loadSlots (paths : List String) (p : SamplePlayer) :
    List SlotId → m (Except SampleError SamplePlayer × List SampleNotice)
  | [] => return (.ok p, [])
  | slot :: slots => do
    match SampleFolder.pathForSlot paths slot.toNat with
    | .error e => return (.error e, [])
    | .ok path =>
      match ← fetch path with
      | .error cause => return (.error (.notLoaded slot cause), [])
      | .ok data =>
        let said := SampleNotice.loaded slot path data.size
        match p.register slot data with
        | .error e => return (.error e, [said])
        | .ok p => do
          let (result, more) ← p.loadSlots paths slots
          return (result, said :: more)

/-- The player of a track whose sample files are known. -/
def ofPaths (rate : Nat) (t : Track) (channel : Channel SoundCommand) (paths : List String) :
    m (Except SampleError SamplePlayer × List SampleNotice) := do
  let start : SamplePlayer := ⟨rate, t.secondsPerBeat, [], channel⟩
  match ← start.loadSlots fetch paths (folderSlots t) with
  | (.error e, said) => return (.error e, said)
  | (.ok p, said) => return (.ok p, said ++ [.ready p.loaded.length t.samplesDir])

/-- The player of a track. The folder is only listed if some slot plays from it. -/
def ofTrack (store : FolderStore m) (rate : Nat) (t : Track) (channel : Channel SoundCommand) :
    m (Except SampleError SamplePlayer × List SampleNotice) := do
  let listed ← if (folderSlots t).isEmpty then pure (.ok [])
    else SampleFolder.index store t.samplesDir
  match listed with
  | .error e => return (.error e, silentSlots t)
  | .ok paths => do
    let (result, said) ← ofPaths (SampleFolder.load store.toFileStore rate) rate t channel paths
    return (result, silentSlots t ++ said)

/-! ### Playing -/

/-- What the engine is told to play a trigger with a sample. -/
def command (p : SamplePlayer) (sample : SampleId) (t : Trigger) : SoundCommand :=
  .trigger sample t.preset.start (.ofPreset t.preset p.secondsPerBeat p.rate)

/-- Plays a trigger, without waiting for a busy engine. -/
def play (p : SamplePlayer) (t : Trigger) : PlayResult SamplePlayer :=
  match t.source with
  | .bundled name => ⟨p, [(SampleNotice.skipped t.step name).entry], none⟩
  | .folder =>
    match p.loaded.lookup t.slot with
    | none => ⟨p, [], some (.notLoaded t.slot)⟩
    | some sample =>
      match p.channel.send (p.command sample t) with
      | .error cause => ⟨p, [], some (.notQueued cause)⟩
      | .ok channel => ⟨{ p with channel := channel }, [], none⟩

/-- The sample player as a player. -/
def player : Player SamplePlayer := ⟨play⟩

end SamplePlayer

end StepSequencer
