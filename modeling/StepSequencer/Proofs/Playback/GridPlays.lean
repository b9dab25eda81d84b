import StepSequencer.Proofs.Playback.RunOrder

/-!
# What the grid shows is what plays

The grid, the slots of a step and the question whether a number fires are three views of the rules
of a track. Here they are tied to a run of ticks: to what it reports, and to what it asks of its
player.

* `Track.lit_eq_triggered` reads the slots of a step off a column of the grid.
* `Scheduler.tick_recording` says what a player is asked for on a tick. The player is any player:
  the recording one notes each trigger before it hands it on, so a play that fails is noted like
  any other.
* `Run.ticked_recording` goes from a tick to a run of them, by induction on their number.

`Run.ticked_followsGrid` puts these together for a scheduler that starts at the first step.
-/

namespace StepSequencer

variable {σ : Type}

/-! ### The columns of the grid -/

namespace Track

variable (t : Track)

/-- The slots whose row of the grid over the first steps is lit in a column. -/
def lit (length column : Nat) : List Slot :=
  ((t.slots.zip (t.grid length)).filter fun row ↦ row.2[column]? == some true).map (·.1)

theorem lit_eq_triggered {length column : Nat} (h : column < length) :
    t.lit length column = t.triggered (Int64.ofNat column) := by
  have hcell (s : Slot) :
      (((List.range length).map fun step ↦ s.rule.fires (Int64.ofNat step))[column]? == some true) =
        s.rule.fires (Int64.ofNat column) := by
    rw [List.getElem?_map, List.getElem?_range h, Option.map_some, Option.some_beq_some, beq_true]
  unfold lit triggered grid
  induction t.slots with
  | nil => rfl
  | cons s slots ih =>
    rw [List.map_cons, List.zip_cons_cons, List.filter_cons, List.filter_cons, hcell s, ← ih]
    split <;> rfl

/-- A number fires on a step if it is the number of a slot that does. -/
theorem triggers_iff_mem (id : SlotId) (step : Int64) :
    t.triggers id step = true ↔ id ∈ (t.triggered step).map (·.id) := by
  simp [triggers, triggered, and_left_comm, and_comm]

end Track

/-! ### Recording what a player is asked -/

/-- The player that notes each trigger and hands it on to another. -/
def Player.recording (p : Player σ) : Player (σ × List Trigger) where
  play heard t :=
    let result := p.play heard.1 t
    ⟨(result.state, heard.2 ++ [t]), result.log, result.error⟩

namespace Scheduler

variable (p : Player σ) (s : Scheduler)

theorem playOne_recording (player : σ) (heard : List Trigger) (log : List LogEntry) (t : Trigger) :
    playOne p.recording ⟨(player, heard), log⟩ t =
      ⟨((playOne p ⟨player, log⟩ t).player, heard ++ [t]), (playOne p ⟨player, log⟩ t).log⟩ :=
  rfl

theorem foldl_playOne_recording (ts : List Trigger) (acc : PlayLog σ) (heard : List Trigger) :
    ts.foldl (playOne p.recording) ⟨(acc.player, heard), acc.log⟩ =
      ⟨((ts.foldl (playOne p) acc).player, heard ++ ts), (ts.foldl (playOne p) acc).log⟩ := by
  induction ts generalizing acc heard with
  | nil => rw [List.foldl_nil, List.foldl_nil, List.append_nil]
  | cons t ts ih =>
    rw [List.foldl_cons, playOne_recording, ih, List.append_assoc]
    rfl

/-- On a tick a player is asked for what is pending, in order, whatever it answers. -/
theorem tick_recording (player : σ) (heard : List Trigger) :
    s.tick p.recording (player, heard) =
      ⟨((s.tick p player).player, heard ++ s.pending), (s.tick p player).log⟩ := by
  unfold tick
  rw [foldl_playOne_recording p s.pending ⟨player, []⟩]

variable {s}

/-- A scheduler of a track asks for the slots lit in the column of its next step. -/
theorem pending_eq_lit {length : Nat} (h : s.counter.position < length) :
    s.pending =
      (s.track.lit length s.counter.position).map (trigger s.track s.counter.position) := by
  rw [Track.lit_eq_triggered _ h]
  rfl

/-- **Numbers that fire.** A number fires on the step of a tick if and only if the report of the
tick names it. -/
theorem triggers_iff_mem_fired (id : SlotId) :
    s.track.triggers id (Int64.ofNat s.report.step) = true ↔ id ∈ s.report.fired := by
  rw [Track.triggers_iff_mem]
  show _ ↔ id ∈ ((s.track.triggered _).map _).map _
  rw [List.map_map]
  rfl

/-! ### A fresh scheduler -/

variable {t : Track} {interval : Span}

theorem ofTrack_eq (h : t.tickInterval = .ok interval) :
    ofTrack t = .ok ⟨t, .start t.stepCount.toNat, interval⟩ := by
  rw [ofTrack, h]
  rfl

theorem ahead_start_position (j : Nat) :
    (ahead ⟨t, .start t.stepCount.toNat, interval⟩ j).counter.position =
      j % max t.stepCount.toNat 1 := by
  show ((StepCounter.start t.stepCount.toNat).ahead j).position = _
  rw [StepCounter.ahead_position]
  show (0 + j) % max t.stepCount.toNat 1 = _
  rw [Nat.zero_add]

/-- What is pending on a tick is lit in the column of its step, over the steps of the whole loop. -/
theorem ahead_start_pending (j : Nat) :
    (ahead ⟨t, .start t.stepCount.toNat, interval⟩ j).pending =
      (t.lit (max t.stepCount.toNat 1) (j % max t.stepCount.toNat 1)).map
        (trigger t (j % max t.stepCount.toNat 1)) := by
  have hlt : j % max t.stepCount.toNat 1 < max t.stepCount.toNat 1 := Nat.mod_lt _ (by omega)
  rw [pending_eq_lit (ahead_start_position j ▸ hlt), ahead_start_position]
  rfl

end Scheduler

/-! ### Ticks in a row -/

namespace Run

variable {p : Player σ} {s : Scheduler} {player : σ}

/-- The run after a number of ticks. -/
def ticked (p : Player σ) (s : Scheduler) (player : σ) : Nat → Run σ
  | 0 => start s player
  | k + 1 => (ticked p s player k).tick p

@[simp] theorem ticks_ticked (k : Nat) : (ticked p s player k).ticks = k := by
  induction k with
  | zero => rfl
  | succ k ih => exact congrArg (· + 1) ih

theorem inStep_ticked (k : Nat) : InStep p s player (ticked p s player k) := by
  induction k with
  | zero => exact inStep_start
  | succ k ih => exact ih.tick

theorem reports_ticked (k : Nat) :
    (ticked p s player k).reports = (List.range k).map fun j ↦ (s.ahead j).report := by
  rw [(inStep_ticked k).reports, ticks_ticked]

/-- A run with a recording player is the run without the recording. -/
theorem ticked_recording (k : Nat) :
    ticked p.recording s (player, []) k =
      { ticked p s player k with
        player := ((ticked p s player k).player,
          (List.range k).flatMap fun j ↦ (s.ahead j).pending) } := by
  induction k with
  | zero => rfl
  | succ k ih =>
    have hscheduler : (ticked p s player k).scheduler = s.ahead k := by
      rw [(inStep_ticked k).scheduler, ticks_ticked]
    rw [ticked, ih, tick, Scheduler.tick_recording, hscheduler, List.range_succ,
      List.flatMap_append, List.flatMap_singleton]
    simp only [ticked, tick, hscheduler]

/-! ### The run as a whole -/

/-- What a run over the first ticks of a track has to do with the grid of the track. -/
structure FollowsGrid (t : Track) (p : Player σ) (s : Scheduler) (player : σ) (k : Nat) : Prop where
  length_reports : (ticked p s player k).reports.length = k
  /-- The steps go round the loop, and what fires is what the column of the step shows. -/
  report_eq : ∀ j < k, (ticked p s player k).reports[j]? =
    some ⟨j % max t.stepCount.toNat 1,
      (t.lit (max t.stepCount.toNat 1) (j % max t.stepCount.toNat 1)).map (·.id)⟩
  /-- On each tick the player is asked once for each of these slots, in the same order. -/
  heard_succ : ∀ j, (ticked p.recording s (player, []) (j + 1)).player.2 =
    (ticked p.recording s (player, []) j).player.2 ++
      (t.lit (max t.stepCount.toNat 1) (j % max t.stepCount.toNat 1)).map fun slot ↦
        { step := j % max t.stepCount.toNat 1
          slot := slot.id
          source := slot.source
          samplesDir := t.samplesDir
          preset := slot.preset }
  /-- Noting what the player is asked for changes neither the player nor the run. -/
  recording_eq : ticked p.recording s (player, []) k =
    { ticked p s player k with
      player := ((ticked p s player k).player, (ticked p.recording s (player, []) k).player.2) }
  /-- A tick on a step names the numbers that fire on it. -/
  triggers_iff : ∀ s' : Scheduler, s'.track = t → ∀ id,
    t.triggers id (Int64.ofNat s'.report.step) = true ↔ id ∈ s'.report.fired

/-- **What the grid shows is what plays.** A track whose tick has a length can be run, with any
player, and each number of ticks reports and plays what the grid shows. -/
theorem ticked_followsGrid {t : Track} {interval : Span} (h : t.tickInterval = .ok interval)
    (p : Player σ) (player : σ) (k : Nat) :
    ∃ s, Scheduler.ofTrack t = .ok s ∧ FollowsGrid t p s player k := by
  refine ⟨_, Scheduler.ofTrack_eq h, ?_⟩
  constructor
  case length_reports => rw [reports_ticked, List.length_map, List.length_range]
  case report_eq =>
    intro j hj
    rw [reports_ticked, List.getElem?_map, List.getElem?_range hj, Option.map_some,
      Scheduler.report, Scheduler.ahead_start_position, Scheduler.ahead_start_pending,
      List.map_map]
    rfl
  case heard_succ =>
    intro j
    rw [ticked_recording, ticked_recording, List.range_succ, List.flatMap_append,
      List.flatMap_singleton, Scheduler.ahead_start_pending]
    rfl
  case recording_eq => rw [ticked_recording]
  case triggers_iff =>
    rintro s' rfl id
    exact Scheduler.triggers_iff_mem_fired id

/-- A loop of three steps in which one number has two slots, with a player that never succeeds. -/
theorem ticked_followsGrid_failing :
    let t : Track := ⟨"loop", "kit", 120, 3, 1,
      [⟨4, .folder, "hit", .always, .standard⟩, ⟨4, .bundled "bd_haus", "kick", .never, .standard⟩]⟩
    t.tickInterval = .ok ⟨500000000⟩ ∧
      ∃ s, Scheduler.ofTrack t = .ok s ∧
        FollowsGrid t ⟨fun calls _ ↦ ⟨calls + 1, [], some (.failed "no device")⟩⟩ s 0 5 := by
  intro t
  have hspan : Span.ofSeconds
      ((Binary.ofSingle 1).toDouble * (60 / (Binary.ofSingle 120).toDouble)) = .ok ⟨500000000⟩ := by
    decide +kernel
  have hinterval : t.tickInterval = .ok ⟨500000000⟩ := by
    unfold Track.tickInterval Track.secondsPerBeat
    rw [hspan]
    rfl
  exact ⟨hinterval, ticked_followsGrid hinterval _ _ _⟩

end Run

end StepSequencer
