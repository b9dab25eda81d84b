import Mathlib.Data.List.Basic
import Mathlib.Data.List.Induction
import StepSequencer.Playback.SamplePlayer
import StepSequencer.Playback.Scheduler

/-!
# The engine knows every sample it is told to play

A sample player registers the samples of its track's folder slots before it plays anything, and a
channel keeps the order of its messages. So whatever is on its way to the engine, a trigger comes
after the registration of its sample.

`Session.IsSafe` is the invariant behind this. It speaks of all the commands under way at once
(`Engine.Knows`): handled one after the other, none of them triggers a sample that is not there by
then, and after the last one every sample is there. Playing a slot adds a command at the end,
receiving takes one from the front, rendering leaves the samples alone, and without a receiver
nothing is under way. `SamplePlayer.ofPaths_serves` puts this together with what the player sends
when it is made.
-/

namespace StepSequencer

/-! ### First appearances -/

/-- Elements stand in the order in which a list first has them. -/
def InFirstOrder {α : Type} [DecidableEq α] (l firsts : List α) : Prop :=
  firsts.Pairwise fun a b ↦ l.idxOf a < l.idxOf b

theorem inFirstOrder_eraseDups {α : Type} [DecidableEq α] (l : List α) :
    InFirstOrder l l.eraseDups := by
  induction l using List.reverseRecOn with
  | nil => exact .nil
  | append_singleton l b ih =>
    have hold : InFirstOrder (l ++ [b]) l.eraseDups := by
      refine List.Pairwise.imp_of_mem (fun {x y} hx hy hlt ↦ ?_) ih
      rwa [List.idxOf_append_of_mem (List.mem_eraseDups.mp hx),
        List.idxOf_append_of_mem (List.mem_eraseDups.mp hy)]
    rw [InFirstOrder, List.eraseDups_append]
    by_cases hb : b ∈ l
    · have hnone : [b].removeAll l = [] := by simp [List.removeAll, hb]
      rwa [hnone, List.eraseDups_nil, List.append_nil]
    · have hnew : ([b].removeAll l).eraseDups = [b] := by
        simp [List.removeAll, hb, List.eraseDups_cons]
      rw [hnew]
      refine List.pairwise_append.mpr ⟨hold, List.pairwise_singleton _ _, fun x hx y hy ↦ ?_⟩
      have hx := List.mem_eraseDups.mp hx
      obtain rfl := List.mem_singleton.mp hy
      rw [List.idxOf_append_of_mem hx, List.idxOf_append_of_notMem hb]
      exact Nat.lt_add_right _ (List.idxOf_lt_length_of_mem hx)

namespace SamplePlayer

/-- The slots whose samples are loaded are those that play from the folder. -/
theorem mem_folderSlots {t : Track} {k : SlotId} :
    k ∈ folderSlots t ↔ ∃ s ∈ t.slots, s.source = .folder ∧ s.id = k := by
  have hfolder (s : Slot) : s.source.isFolder = true ↔ s.source = .folder := by
    cases hs : s.source with
    | folder => exact iff_of_true rfl rfl
    | bundled name => exact iff_of_false Bool.false_ne_true nofun
  simp only [folderSlots, List.mem_eraseDups, List.mem_map, List.mem_filter, hfolder, and_assoc]

/-! ### Registrations -/

/-- A sample that was loaded for a slot, and its number. -/
structure Registration where
  slot : SlotId
  id : SampleId
  data : SampleData

/-- What the engine is told of the sample. -/
def Registration.command (r : Registration) : SoundCommand := .register r.id r.data

variable {W : Type} {fetch : String → StateM W (Except SoundFileError SampleData)}
  {paths : List String} {rate : Nat} {t : Track} {p p' : SamplePlayer} {w w' : W}
  {said : List SampleNotice}

/-- The samples were loaded one after the other, each from the file of its slot, where the file
after the last is the first again. -/
inductive Loads (fetch : String → StateM W (Except SoundFileError SampleData))
    (paths : List String) : W → List Registration → W → Prop where
  | nil {w : W} : Loads fetch paths w [] w
  | cons {w w₁ w₂ : W} {r : Registration} {regs : List Registration} {path : String} :
      paths[r.slot.toNat % paths.length]? = some path → (fetch path).run w = (.ok r.data, w₁) →
      Loads fetch paths w₁ regs w₂ → Loads fetch paths w (r :: regs) w₂

/-- The player after some samples were registered. -/
def registered (p : SamplePlayer) (regs : List Registration) : SamplePlayer :=
  { p with
    loaded := p.loaded ++ regs.map fun r ↦ (r.slot, r.id)
    channel := { p.channel with waiting := p.channel.waiting ++ regs.map Registration.command } }

theorem register_eq_ok {slot : SlotId} {data : SampleData} (h : p.register slot data = .ok p') :
    p' = p.registered [⟨slot, p.loaded.length, data⟩] := by
  rw [register] at h
  split at h
  · exact (Except.ok.inj h).symm
  · cases h

theorem registered_registered (p : SamplePlayer) (regs more : List Registration) :
    (p.registered regs).registered more = p.registered (regs ++ more) := by
  simp only [registered, List.map_append, List.append_assoc]

theorem file_eq_ok {slot : Nat} {path : String}
    (h : SampleFolder.pathForSlot paths slot = .ok path) :
    paths[slot % paths.length]? = some path := by
  rw [SampleFolder.pathForSlot] at h
  split at h
  · next hpath => rw [hpath, Except.ok.inj h]
  · cases h

/-- Loading gives each slot a sample, numbered on from those that the player had. -/
theorem loadSlots_eq_ok {slots : List SlotId}
    (h : (p.loadSlots fetch paths slots).run w = ((.ok p', said), w')) :
    ∃ regs, Loads fetch paths w regs w' ∧ regs.map (·.slot) = slots ∧
      regs.map (·.id) = List.range' p.loaded.length slots.length ∧ p' = p.registered regs := by
  induction slots generalizing p w said with
  | nil =>
    obtain ⟨hresult, rfl⟩ := Prod.mk.inj h
    obtain ⟨hp, -⟩ := Prod.mk.inj hresult
    refine ⟨[], .nil, rfl, rfl, ?_⟩
    rw [← Except.ok.inj hp]
    simp [registered]
  | cons slot slots ih =>
    rw [loadSlots] at h
    split at h
    case h_1 => cases h
    case h_2 path hpath =>
    rcases hfetch : (fetch path).run w with ⟨result, w₁⟩
    rw [StateT.run_bind, hfetch] at h
    rcases result with cause | data
    · cases h
    dsimp only [bind, pure] at h
    split at h
    case h_1 => cases h
    case h_2 q hq =>
    obtain rfl := register_eq_ok hq
    -- the other slots are loaded by a player that has this sample already
    change (loadSlots fetch paths (p.registered _) slots >>= _).run w₁ = _ at h
    rcases hrest : (loadSlots fetch paths (p.registered [⟨slot, p.loaded.length, data⟩]) slots).run w₁
      with ⟨⟨result, more⟩, w₂⟩
    rw [StateT.run_bind, hrest] at h
    obtain ⟨hresult, rfl⟩ := Prod.mk.inj h
    obtain ⟨rfl, -⟩ := Prod.mk.inj hresult
    obtain ⟨regs, hloads, hslots, hids, rfl⟩ := ih hrest
    refine ⟨⟨slot, p.loaded.length, data⟩ :: regs, .cons (file_eq_ok hpath) hfetch hloads, ?_, ?_, ?_⟩
    · rw [List.map_cons, hslots]
    · rw [List.map_cons, hids, List.length_cons, List.range'_succ]
      simp [registered]
    · exact registered_registered p [_] regs

/-- **What a new player sends**: the samples of the folder slots, each once. -/
theorem ofPaths_eq_ok {channel : Channel SoundCommand}
    (h : (ofPaths fetch rate t channel paths).run w = ((.ok p, said), w')) :
    ∃ regs, Loads fetch paths w regs w' ∧ regs.map (·.slot) = folderSlots t ∧
      regs.map (·.id) = List.range regs.length ∧
      p = registered ⟨rate, t.secondsPerBeat, [], channel⟩ regs := by
  rw [ofPaths] at h
  rcases hload : (loadSlots fetch paths ⟨rate, t.secondsPerBeat, [], channel⟩ (folderSlots t)).run w
    with ⟨⟨result, more⟩, w₁⟩
  rw [StateT.run_bind, hload] at h
  rcases result with e | q
  · cases h
  obtain ⟨hresult, rfl⟩ := Prod.mk.inj h
  obtain ⟨hp, -⟩ := Prod.mk.inj hresult
  obtain rfl := Except.ok.inj hp
  obtain ⟨regs, hloads, hslots, hids, rfl⟩ := loadSlots_eq_ok hload
  refine ⟨regs, hloads, hslots, ?_, rfl⟩
  rw [hids, ← hslots, List.length_map, List.range_eq_range']
  rfl

/-- The player of a track is one whose files were listed, if any slot plays from the folder. -/
theorem ofTrack_eq_ok {store : FolderStore (StateM W)} {channel : Channel SoundCommand}
    (h : (ofTrack store rate t channel).run w = ((.ok p, said), w')) :
    ∃ paths w₁ more, (ofPaths (SampleFolder.load store.toFileStore rate) rate t channel paths).run w₁ =
        ((.ok p, more), w') ∧
      (folderSlots t ≠ [] → (SampleFolder.index store t.samplesDir).run w = (.ok paths, w₁)) := by
  have hmade : ∀ paths w₁, (ofPaths (SampleFolder.load store.toFileStore rate) rate t channel paths >>=
      fun made ↦ pure (made.1, silentSlots t ++ made.2)).run w₁ = ((.ok p, said), w') →
      ∃ more, (ofPaths (SampleFolder.load store.toFileStore rate) rate t channel paths).run w₁ =
        ((.ok p, more), w') := by
    intro paths w₁ hrun
    rcases hmade : (ofPaths (SampleFolder.load store.toFileStore rate) rate t channel paths).run w₁
      with ⟨⟨made, more⟩, w₂⟩
    rw [StateT.run_bind, hmade] at hrun
    obtain ⟨hresult, rfl⟩ := Prod.mk.inj hrun
    obtain ⟨rfl, -⟩ := Prod.mk.inj hresult
    exact ⟨more, rfl⟩
  rw [ofTrack] at h
  split at h
  · next hempty =>
    obtain ⟨more, hrun⟩ := hmade [] w h
    exact ⟨[], w, more, hrun, fun hne ↦ absurd (List.isEmpty_iff.mp hempty) hne⟩
  · rcases hlisted : (SampleFolder.index store t.samplesDir).run w with ⟨listed, w₁⟩
    rw [StateT.run_bind, hlisted] at h
    rcases listed with e | paths
    · cases h
    obtain ⟨more, hrun⟩ := hmade paths w₁ h
    exact ⟨paths, w₁, more, hrun, fun _ ↦ rfl⟩

end SamplePlayer

open SamplePlayer (Registration Loads folderSlots)

/-! ### Commands under way -/

namespace Engine

variable {regs : List Registration} {e e' : Engine}

/-- The engine has the sample under its number. -/
def Has (e : Engine) (r : Registration) : Prop := e.sample? r.id = some r.data

/-- The commands can be handled one after the other: each trigger finds its sample, and in the end
all the samples are there. -/
def Knows (regs : List Registration) : Engine → List SoundCommand → Prop
  | e, [] => ∀ r ∈ regs, e.Has r
  | e, c :: cs =>
    (∀ id start envelope, c = .trigger id start envelope → ∃ r ∈ regs, r.id = id ∧ e.Has r) ∧
      Knows regs (e.handle c) cs

theorem handle_samples_congr (h : e.samples = e'.samples) (c : SoundCommand) :
    (e.handle c).samples = (e'.handle c).samples := by
  cases c with
  | register id data => exact congrArg ((id, data) :: ·) h
  | trigger id start envelope => rw [handle_trigger_samples, handle_trigger_samples, h]

/-- Only the samples of an engine matter. -/
theorem Knows.congr (cs : List SoundCommand) (h : Knows regs e cs) (hsamples : e.samples = e'.samples) :
    Knows regs e' cs := by
  have hhas (r : Registration) : e.Has r ↔ e'.Has r := by rw [Has, Has, sample?, sample?, hsamples]
  induction cs generalizing e e' with
  | nil => exact fun r hr ↦ (hhas r).mp (h r hr)
  | cons c cs ih =>
    obtain ⟨hfirst, hrest⟩ := h
    refine ⟨fun id start envelope hc ↦ ?_, ?_⟩
    · obtain ⟨r, hr, hid, hhere⟩ := hfirst id start envelope hc
      exact ⟨r, hr, hid, (hhas r).mp hhere⟩
    · have hsamples := handle_samples_congr hsamples c
      exact ih hrest hsamples fun r ↦ by rw [Has, Has, sample?, sample?, hsamples]

/-- One more trigger finds its sample, which by then is there. -/
theorem Knows.push {cs : List SoundCommand} (h : Knows regs e cs) {r : Registration} (hr : r ∈ regs)
    (start : Float32) (envelope : Envelope) :
    Knows regs e (cs ++ [.trigger r.id start envelope]) := by
  induction cs generalizing e with
  | nil =>
    refine ⟨?_, Knows.congr [] h (handle_trigger_samples ..).symm⟩
    rintro _ _ _ ⟨⟩
    exact ⟨r, hr, rfl, h r hr⟩
  | cons c cs ih => exact ⟨h.1, ih h.2⟩

/-- A sample registered under another number stays. -/
theorem Has.handle_register {r s : Registration} (h : e.Has r) (hne : r.id ≠ s.id) :
    (e.handle s.command).Has r := by
  show ((s.id, s.data) :: e.samples).lookup r.id = _
  rw [List.lookup_cons, beq_false_of_ne hne]
  exact h

/-- Registering samples under numbers of their own makes them known. -/
theorem knows_registrations (done : List Registration) {todo : List Registration}
    (h : ∀ r ∈ done, e.Has r) (hids : ((done ++ todo).map (·.id)).Nodup) :
    Knows (done ++ todo) e (todo.map Registration.command) := by
  induction todo generalizing done e with
  | nil => rwa [List.append_nil]
  | cons r todo ih =>
    refine ⟨nofun, ?_⟩
    rw [List.append_cons] at hids ⊢
    refine ih (done ++ [r]) (fun s hs ↦ ?_) hids
    rcases List.mem_append.mp hs with hs | hs
    · have hne : s.id ≠ r.id := by
        rw [List.append_assoc, List.map_append] at hids
        exact (List.nodup_append.mp hids).2.2 _ (List.mem_map_of_mem hs) _ List.mem_cons_self
      exact (h s hs).handle_register hne
    · obtain rfl := List.mem_singleton.mp hs
      exact List.lookup_cons_self

end Engine

/-! ### Sessions -/

/-- A player and the engine at the other end of its channel. -/
structure Session where
  player : SamplePlayer
  engine : Engine

namespace Session

/-- What may happen while a track is played. -/
inductive Event where
  | play (step : Nat) (s : Slot)
  /-- The engine handles the oldest command under way. -/
  | receive
  /-- The engine fills a block. -/
  | render (block : List Frame)
  /-- The engine stops receiving. -/
  | close

variable (t : Track)

/-- The session with other commands under way. -/
def withChannel (x : Session) (channel : Channel SoundCommand) : Session :=
  { x with player := { x.player with channel := channel } }

/-- The session after the oldest command was handled. -/
def receive (x : Session) : Session :=
  match x.player.channel.waiting with
  | [] => x
  | c :: cs =>
    { x.withChannel { x.player.channel with waiting := cs } with engine := x.engine.handle c }

/-- The session after an event. -/
def step (x : Session) : Event → Session
  | .play step s => { x with player := (x.player.play (Scheduler.trigger t step s)).state }
  | .receive => x.receive
  | .render block => { x with engine := (x.engine.render block).1 }
  | .close => x.withChannel x.player.channel.closed

/-- The session after events. -/
def run (x : Session) (events : List Event) : Session := events.foldl (step t) x

/-- Only slots of the track are played. -/
def IsOwn (events : List Event) : Prop := ∀ step s, Event.play step s ∈ events → s ∈ t.slots

variable {t} {regs : List Registration} {x : Session}

/-- The player knows the number of each sample, and the engine knows, or is about to know, each
sample itself. -/
structure IsSafe (regs : List Registration) (x : Session) : Prop where
  loaded : x.player.loaded = regs.map fun r ↦ (r.slot, r.id)
  knows : x.player.channel.isOpen = true → x.engine.Knows regs x.player.channel.waiting
  lost : x.player.channel.isOpen = false → x.player.channel.waiting = []

theorem lookup_loaded {k : SlotId} (hk : k ∈ regs.map (·.slot)) :
    ∃ r ∈ regs, r.slot = k ∧ (regs.map fun r ↦ (r.slot, r.id)).lookup k = some r.id := by
  induction regs with
  | nil => cases hk
  | cons r regs ih =>
    rw [List.map_cons, List.lookup_cons]
    by_cases hslot : k = r.slot
    · subst hslot
      rw [beq_self_eq_true]
      exact ⟨r, List.mem_cons_self, rfl, rfl⟩
    · rw [beq_false_of_ne hslot]
      obtain ⟨s, hs, hfound⟩ := ih ((List.mem_cons.mp hk).resolve_left hslot)
      exact ⟨s, List.mem_cons_of_mem _ hs, hfound⟩

/-- A bundled sample is not played, which is no error. -/
theorem play_bundled (p : SamplePlayer) {trigger : Trigger} {name : String}
    (h : trigger.source = .bundled name) :
    (p.play trigger).state = p ∧ (p.play trigger).error = none := by
  rw [SamplePlayer.play, h]
  exact ⟨rfl, rfl⟩

/-- A sample that is loaded is played if there is a receiver and room; otherwise nothing changes and
there is an error. -/
theorem play_folder (p : SamplePlayer) (trigger : Trigger) {id : SampleId}
    (h : trigger.source = .folder) (hid : p.loaded.lookup trigger.slot = some id) :
    if p.channel.isOpen = true ∧ p.channel.isFull = false then
      (p.play trigger).state = { p with channel := p.channel.push (p.command id trigger) } ∧
        (p.play trigger).error = none
    else (p.play trigger).state = p ∧ ∃ cause, (p.play trigger).error = some (.notQueued cause) := by
  rw [SamplePlayer.play, h]
  dsimp only
  rw [hid]
  dsimp only
  rw [Channel.send]
  cases p.channel.isOpen with
  | false => exact ⟨rfl, .disconnected, rfl⟩
  | true =>
    cases p.channel.isFull with
    | false => exact ⟨rfl, rfl⟩
    | true => exact ⟨rfl, .full, rfl⟩

/-- What holds of a session at any time, for a track whose samples were registered. -/
structure Serves (t : Track) (regs : List Registration) (x : Session) : Prop where
  /-- Playing a bundled slot queues nothing. -/
  bundled : ∀ s ∈ t.slots, ∀ name, s.source = .bundled name → ∀ step,
    (x.player.play (Scheduler.trigger t step s)).state = x.player ∧
      (x.player.play (Scheduler.trigger t step s)).error = none
  /-- Playing a folder slot queues a trigger of the sample registered for it, or fails and queues
  nothing. -/
  folder : ∀ s ∈ t.slots, s.source = .folder → ∃ r ∈ regs, r.slot = s.id ∧ ∀ step,
    if x.player.channel.isOpen = true ∧ x.player.channel.isFull = false then
      (x.player.play (Scheduler.trigger t step s)).state.channel.waiting =
          x.player.channel.waiting ++ [x.player.command r.id (Scheduler.trigger t step s)] ∧
        (x.player.play (Scheduler.trigger t step s)).error = none
    else (x.player.play (Scheduler.trigger t step s)).state = x.player ∧
      ∃ cause, (x.player.play (Scheduler.trigger t step s)).error = some (.notQueued cause)
  /-- A trigger that the engine is about to handle starts a voice of a registered sample. -/
  received : ∀ id start envelope rest,
    x.player.channel.waiting = .trigger id start envelope :: rest → ∃ r ∈ regs, r.id = id ∧
      x.receive.engine.voices =
        Engine.addVoice x.engine.voices (.start id (Engine.startFrame start r.data) envelope)

variable (hslots : regs.map (·.slot) = folderSlots t)

include hslots

theorem exists_loaded (h : x.IsSafe regs) {s : Slot} (hs : s ∈ t.slots) (hfolder : s.source = .folder) :
    ∃ r ∈ regs, r.slot = s.id ∧ x.player.loaded.lookup s.id = some r.id := by
  rw [h.loaded]
  refine lookup_loaded ?_
  rw [hslots]
  exact SamplePlayer.mem_folderSlots.mpr ⟨s, hs, hfolder, rfl⟩

theorem IsSafe.play (h : x.IsSafe regs) {s : Slot} (hs : s ∈ t.slots) (step : Nat) :
    (x.step t (.play step s)).IsSafe regs := by
  cases hsource : s.source with
  | bundled name =>
    rw [Session.step, (play_bundled x.player hsource).1]
    exact h
  | folder =>
    obtain ⟨r, hr, -, hid⟩ := exists_loaded hslots h hs hsource
    have hplay := play_folder x.player (Scheduler.trigger t step s) hsource hid
    rw [Session.step]
    split at hplay
    · next hsent =>
      rw [hplay.1]
      exact ⟨h.loaded, fun hopen ↦ (h.knows hopen).push hr _ _,
        fun hclosed ↦ absurd (hsent.1.symm.trans hclosed) nofun⟩
    · rw [hplay.1]
      exact h

omit hslots in
theorem IsSafe.receive (h : x.IsSafe regs) : x.receive.IsSafe regs := by
  rw [Session.receive]
  split
  · exact h
  · next c cs hwaiting =>
    refine ⟨h.loaded, fun hopen ↦ ?_, fun hclosed ↦ ?_⟩
    · have hknows := h.knows hopen
      rw [hwaiting] at hknows
      exact hknows.2
    · rw [h.lost hclosed] at hwaiting
      cases hwaiting

/-- Each event keeps a session safe. -/
theorem IsSafe.step (h : x.IsSafe regs) {event : Event} (hown : IsOwn t [event]) :
    (x.step t event).IsSafe regs := by
  cases event with
  | play step s => exact h.play hslots (hown step s List.mem_cons_self) step
  | receive => exact h.receive
  | render block => exact ⟨h.loaded, fun hopen ↦ Engine.Knows.congr _ (h.knows hopen) rfl, h.lost⟩
  | close => exact ⟨h.loaded, nofun, fun _ ↦ rfl⟩

theorem IsSafe.run (h : x.IsSafe regs) {events : List Event} (hown : IsOwn t events) :
    (x.run t events).IsSafe regs := by
  induction events generalizing x with
  | nil => exact h
  | cons event events ih =>
    have hfirst : IsOwn t [event] := fun step s hmem ↦
      hown step s (List.mem_singleton.mp hmem ▸ List.mem_cons_self)
    exact ih (h.step hslots hfirst) fun step s hmem ↦ hown step s (List.mem_cons_of_mem _ hmem)

theorem IsSafe.serves (h : x.IsSafe regs) : x.Serves t regs where
  bundled s _ name hsource step := play_bundled x.player hsource
  folder s hs hsource := by
    obtain ⟨r, hr, hslot, hid⟩ := exists_loaded hslots h hs hsource
    refine ⟨r, hr, hslot, fun step ↦ ?_⟩
    have hplay := play_folder x.player (Scheduler.trigger t step s) hsource hid
    split at hplay
    · next hsent =>
      rw [if_pos hsent, hplay.1]
      exact ⟨rfl, hplay.2⟩
    · next hnot => rwa [if_neg hnot]
  received id start envelope rest hwaiting := by
    have hopen : x.player.channel.isOpen = true := by
      by_contra hclosed
      rw [h.lost (Bool.not_eq_true _ ▸ hclosed)] at hwaiting
      cases hwaiting
    have hknows := h.knows hopen
    rw [hwaiting] at hknows
    obtain ⟨r, hr, rfl, hhas⟩ := hknows.1 id start envelope rfl
    refine ⟨r, hr, rfl, ?_⟩
    rw [Session.receive, hwaiting]
    show (x.engine.handle (.trigger r.id start envelope)).voices = _
    rw [Engine.handle, hhas]

end Session

namespace SamplePlayer

variable {W : Type} {fetch : String → StateM W (Except SoundFileError SampleData)}
  {paths : List String} {rate : Nat} {t : Track} {capacity : Option Nat} {p : SamplePlayer}
  {w w' : W} {said : List SampleNotice}

/-- A session serves its track from the moment on at which the samples of the folder slots are
registered, under numbers of their own. -/
theorem registered_serves {regs : List Registration} (hslots : regs.map (·.slot) = folderSlots t)
    (hids : (regs.map (·.id)).Nodup) (e : Engine) {events : List Session.Event}
    (hown : Session.IsOwn t events) :
    (Session.run t ⟨registered ⟨rate, t.secondsPerBeat, [], .empty capacity⟩ regs, e⟩ events).Serves
      t regs := by
  have hstart : Session.IsSafe regs ⟨registered ⟨rate, t.secondsPerBeat, [], .empty capacity⟩ regs, e⟩ :=
    ⟨rfl, fun _ ↦ Engine.knows_registrations [] (List.forall_mem_nil _) hids, nofun⟩
  exact (hstart.run hslots hown).serves hslots

/-- The player of a track plays the files that are listed in the track's folder, and its sessions
serve the track. -/
theorem ofTrack_serves {store : FolderStore (StateM W)}
    (h : (ofTrack store rate t (.empty capacity)).run w = ((.ok p, said), w')) :
    ∃ paths w₁ regs,
      (folderSlots t ≠ [] → (SampleFolder.index store t.samplesDir).run w = (.ok paths, w₁)) ∧
      Loads (SampleFolder.load store.toFileStore rate) paths w₁ regs w' ∧
      p.channel.waiting = regs.map Registration.command ∧
      ∀ (e : Engine) (events : List Session.Event), Session.IsOwn t events →
        (Session.run t ⟨p, e⟩ events).Serves t regs := by
  obtain ⟨paths, w₁, more, hpaths, hlisted⟩ := ofTrack_eq_ok h
  obtain ⟨regs, hloads, hslots, hids, rfl⟩ := ofPaths_eq_ok hpaths
  exact ⟨paths, w₁, regs, hlisted, hloads, rfl,
    fun e events ↦ registered_serves hslots (hids ▸ List.nodup_range) e⟩

/-- **The engine never meets a trigger for a sample it does not have.** A new player sends one
registration for each folder slot; from then on, whatever is played, received and rendered in
whatever order, a trigger that is queued is one for the sample of its slot, and a trigger that is
received plays. -/
theorem ofPaths_serves
    (h : (ofPaths fetch rate t (.empty capacity) paths).run w = ((.ok p, said), w')) :
    ∃ regs : List Registration,
      p.channel.waiting = regs.map Registration.command ∧
      regs.map (·.slot) = folderSlots t ∧
      (∀ k, k ∈ folderSlots t ↔ ∃ s ∈ t.slots, s.source = .folder ∧ s.id = k) ∧
      InFirstOrder ((t.slots.filter (·.source.isFolder)).map (·.id)) (folderSlots t) ∧
      (regs.map (·.id)).Nodup ∧
      Loads fetch paths w regs w' ∧
      ∀ (e : Engine) (events : List Session.Event), Session.IsOwn t events →
        (Session.run t ⟨p, e⟩ events).Serves t regs := by
  obtain ⟨regs, hloads, hslots, hids, rfl⟩ := ofPaths_eq_ok h
  have hnodup : (regs.map (·.id)).Nodup := by
    rw [hids]
    exact List.nodup_range
  exact ⟨regs, rfl, hslots, fun k ↦ mem_folderSlots, inFirstOrder_eraseDups _, hnodup, hloads,
    fun e events ↦ registered_serves hslots hnodup e⟩

/-- A track whose second and third slot share a sample, and whose fourth one is silent. -/
def sharing : Track where
  name := "loop"
  samplesDir := "kit"
  bpm := 60
  stepCount := 4
  beatsPerStep := 1
  slots := [⟨3, .folder, "hat", .always, .standard⟩, ⟨2, .folder, "kick", .always, .standard⟩,
    ⟨2, .folder, "tap", .never, .standard⟩, ⟨4, .bundled "bd_haus", "boom", .always, .standard⟩]

/-- Counts the files that are loaded. -/
def counting (_ : String) : StateM Nat (Except SoundFileError SampleData) := do
  modify (· + 1)
  return .ok #[]

/-- Both samples of the track come from the only file. -/
theorem ofPaths_serves_sharing :
    ∃ p said, (ofPaths counting 44100 sharing (.empty (some 8)) ["kit/a.wav"]).run 0 =
        ((.ok p, said), 2) ∧
      Session.IsOwn sharing [.receive, .play 0 sharing.slots[1], .render [], .receive, .receive] ∧
      ∃ regs : List Registration, regs.map (·.slot) = [3, 2] ∧
        (Session.run sharing ⟨p, .silent⟩
          [.receive, .play 0 sharing.slots[1], .render [], .receive, .receive]).Serves sharing regs := by
  have hread : ∃ p said, (ofPaths counting 44100 sharing (.empty (some 8)) ["kit/a.wav"]).run 0 =
      ((.ok p, said), 2) := ⟨_, _, rfl⟩
  have hown : Session.IsOwn sharing
      [.receive, .play 0 sharing.slots[1], .render [], .receive, .receive] := by
    intro step s hs
    simp only [List.mem_cons, reduceCtorEq, Session.Event.play.injEq, List.not_mem_nil, false_or,
      or_false] at hs
    rw [hs.2]
    exact List.getElem_mem _
  obtain ⟨p, said, hp⟩ := hread
  obtain ⟨regs, -, hslots, -, -, -, -, hserves⟩ := ofPaths_serves hp
  exact ⟨p, said, hp, hown, regs, hslots.trans rfl, hserves .silent _ hown⟩

end SamplePlayer

end StepSequencer
