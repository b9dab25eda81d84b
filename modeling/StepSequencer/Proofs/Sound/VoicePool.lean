import Mathlib.Data.List.Induction
import StepSequencer.Proofs.Sound.Blocks

/-!
# The pool of voices

Registrations, triggers and blocks reach an engine in any order. What the engine has for a sample is
what the history registered for it last (`sample?_after`). `Playing` is a voice together with the
event that triggered it, and `IsPool` says what the voices are after a history: no more than there
can be, of registered samples, in the order of their triggers, each as far along as frames were
rendered since.

One event keeps this (`IsPool.step`), so it holds of every history (`exists_isPool`). What an event
does to the pool is `PoolRules`. Its rule for a block rests on `Voice.mix_fst`: a voice goes on after
a block exactly if it is alive at each frame of it.
-/

namespace StepSequencer

namespace Voice

variable {data : SampleData}

/-- The voice a number of frames later. -/
def advanceBy (n : Nat) (v : Voice) : Voice :=
  { v with position := v.position + n, age := v.age + n }

theorem advanceBy_succ (n : Nat) (v : Voice) : v.advanceBy (n + 1) = v.advance.advanceBy n := by
  have hposition : v.position + (n + 1) = v.position + 1 + n := by omega
  have hage : v.age + (n + 1) = v.age + 1 + n := by omega
  rw [advanceBy, hposition, hage]
  rfl

/-- The voice plays in each of the next `n` frames. -/
def Outlasts (data : SampleData) (n : Nat) (v : Voice) : Prop := ∀ t < n, v.AliveAt data t

instance (data : SampleData) (n : Nat) (v : Voice) : Decidable (v.Outlasts data n) :=
  inferInstanceAs (Decidable (∀ t, t < n → _))

theorem outlasts_succ_iff {v : Voice} (h : v.AliveAt data 0) (n : Nat) :
    v.Outlasts data (n + 1) ↔ v.advance.Outlasts data n := by
  constructor
  · intro hall t ht
    exact (aliveAt_succ_iff h t).mp (hall (t + 1) (by omega))
  · rintro hall (- | t) ht
    · exact h
    · exact (aliveAt_succ_iff h t).mpr (hall t (by omega))

/-- A voice that does not outlast some frames comes to the end of its sample or its envelope. -/
theorem exists_end_of_not_outlasts {v : Voice} {n : Nat} (h : ¬v.Outlasts data n) :
    ∃ t < n, data.size ≤ v.position + t ∨ v.envelope.levelAt (v.age + t) = none := by
  simp only [Outlasts, AliveAt, not_forall, not_and_or] at h
  obtain ⟨t, ht, hend | ⟨u, hu, hlevel⟩⟩ := h
  · exact ⟨t, ht, .inl (Nat.not_lt.mp hend)⟩
  · exact ⟨u, by omega, .inr (Option.not_isSome_iff_eq_none.mp hlevel)⟩

/-- A voice goes on after a block exactly if it plays in each frame of it. -/
theorem mix_fst (v : Voice) (block : List Frame) : (v.mix data block).1 =
    if v.Outlasts data block.length then some (v.advanceBy block.length) else none := by
  induction block generalizing v with
  | nil => exact (if_pos fun t ht ↦ absurd ht (Nat.not_lt_zero t)).symm
  | cons f block ih =>
    rcases h : v.current? data with - | ⟨gain, frame⟩
    · have hends : ¬v.Outlasts data (f :: block).length := fun hall ↦
        not_aliveAt h 0 (hall 0 (Nat.succ_pos _))
      rw [mix, h, if_neg hends]
    · rw [mix, h]
      show (v.advance.mix data block).1 = _
      rw [ih, List.length_cons, advanceBy_succ]
      simp only [outlasts_succ_iff (aliveAt_zero h)]

/-- Mixing a voice in does not change how long a block is. -/
theorem length_mix (v : Voice) (block : List Frame) : (v.mix data block).2.length = block.length := by
  induction block generalizing v with
  | nil => rfl
  | cons f block ih =>
    rw [mix]
    rcases v.current? data with - | ⟨gain, frame⟩
    · rfl
    · show (v.advance.mix data block).2.length + 1 = block.length + 1
      rw [ih]

end Voice

namespace Engine

/-! ### What a block leaves -/

/-- The voice plays a registered sample in each of the next `n` frames. -/
def Outlasts (e : Engine) (n : Nat) (v : Voice) : Prop :=
  ∃ data ∈ e.sample? v.sample, v.Outlasts data n

instance (e : Engine) (n : Nat) (v : Voice) : Decidable (e.Outlasts n v) :=
  inferInstanceAs (Decidable (∃ data ∈ e.sample? v.sample, _))

theorem outlasts_iff {e : Engine} {v : Voice} {data : SampleData} (h : e.sample? v.sample = some data)
    (n : Nat) : e.Outlasts n v ↔ v.Outlasts data n := by
  rw [Outlasts, h]
  exact ⟨fun ⟨_, hdata, hall⟩ ↦ Option.some.inj hdata ▸ hall, fun hall ↦ ⟨data, rfl, hall⟩⟩

/-- After a block there are the voices that outlast it, in the order in which they were. -/
theorem mixVoices_fst (e : Engine) (voices : List Voice) (block : List Frame) :
    (e.mixVoices voices block).1 =
      (voices.filter (e.Outlasts block.length)).map (Voice.advanceBy block.length) := by
  induction voices generalizing block with
  | nil => rfl
  | cons v voices ih =>
    rw [List.filter_cons, mixVoices]
    rcases h : e.sample? v.sample with - | data
    · have hends : ¬e.Outlasts block.length v := by
        rintro ⟨data, hdata, -⟩
        cases h.symm.trans hdata
      rw [decide_eq_false hends]
      exact ih block
    · show (v.mix data block).1.toList ++ (e.mixVoices voices (v.mix data block).2).1 = _
      rw [ih, Voice.length_mix, Voice.mix_fst]
      by_cases hlasts : v.Outlasts data block.length
      · rw [if_pos hlasts, decide_eq_true ((outlasts_iff h _).mpr hlasts)]
        rfl
      · rw [if_neg hlasts, decide_eq_false ((outlasts_iff h _).not.mpr hlasts)]
        rfl

/-! ### Histories -/

/-- What happens to an engine. -/
inductive Event where
  | command (c : SoundCommand)
  /-- The engine fills a block. -/
  | render (block : List Frame)

/-- The frames that are rendered with the event. -/
def Event.frames : Event → Nat
  | .command _ => 0
  | .render block => block.length

/-- The engine after an event. -/
def step (e : Engine) : Event → Engine
  | .command c => e.handle c
  | .render block => (e.render block).1

/-- The engine after a history, which begins with no sample and no voice. -/
def after (events : List Event) : Engine := events.foldl step silent

/-- The frames that were rendered in a history. -/
def framesOf (events : List Event) : Nat := events.foldl (fun n event ↦ n + event.frames) 0

variable {e : Engine} {events : List Event} {event : Event}

theorem after_concat (events : List Event) (event : Event) :
    after (events ++ [event]) = (after events).step event := List.foldl_append

theorem framesOf_concat (events : List Event) (event : Event) :
    framesOf (events ++ [event]) = framesOf events + event.frames := List.foldl_append

/-! ### Registered samples -/

/-- The frames that the event registers for a sample. -/
def Event.registered? (id : SampleId) : Event → Option SampleData
  | .command (.register other data) => if id = other then some data else none
  | .command (.trigger ..) | .render _ => none

/-- A registration takes the place of an earlier one, and no other event changes a sample. -/
theorem sample?_step (e : Engine) (event : Event) (id : SampleId) :
    (e.step event).sample? id = (event.registered? id).or (e.sample? id) := by
  cases event with
  | command c =>
    cases c with
    | register other data =>
      show ((other, data) :: e.samples).lookup id = (if id = other then some data else none).or _
      by_cases hid : id = other
      · subst hid
        rw [if_pos rfl]
        exact List.lookup_cons_self
      · rw [if_neg hid, List.lookup_cons, beq_false_of_ne hid]
        rfl
    | trigger other start envelope =>
      rw [step, sample?, handle_trigger_samples]
      rfl
  | render block => rfl

/-- No event takes a sample away. -/
theorem isSome_sample?_step {id : SampleId} (h : (e.sample? id).isSome) (event : Event) :
    ((e.step event).sample? id).isSome := by
  rw [sample?_step, Option.isSome_or, h, Bool.or_true]

/-- The engine has for a sample what the history registered for it last. -/
theorem sample?_after (events : List Event) (id : SampleId) :
    (after events).sample? id = (events.filterMap (Event.registered? id)).getLast? := by
  induction events using List.reverseRecOn with
  | nil => rfl
  | append_singleton events event ih =>
    rw [after_concat, sample?_step, ih, List.filterMap_append, List.getLast?_append]
    cases h : event.registered? id with
    | none => rw [List.filterMap_cons_none h]; rfl
    | some data => rw [List.filterMap_cons_some h]; rfl

/-! ### Voices and their triggers -/

/-- A voice, with the place in a history of the event that triggered it. -/
structure Playing where
  trigger : Nat
  voice : Voice

/-- The same voice a number of frames later. -/
def Playing.advanceBy (n : Nat) (p : Playing) : Playing := { p with voice := p.voice.advanceBy n }

/-- The event triggered the voice, whose sample was registered by then, and the voice has come as far
since as frames were rendered. -/
def StartedIn (events : List Event) (p : Playing) : Prop :=
  ∃ start data,
    events[p.trigger]? = some (.command (.trigger p.voice.sample start p.voice.envelope)) ∧
    (after (events.take p.trigger)).sample? p.voice.sample = some data ∧
    p.voice.age = framesOf (events.drop (p.trigger + 1)) ∧
    p.voice.position = startFrame start data + p.voice.age

/-- Voices of registered samples, in the order of their triggers. -/
structure InOrder (events : List Event) (ps : List Playing) : Prop where
  known : ∀ p ∈ ps, ((after events).sample? p.voice.sample).isSome
  started : ∀ p ∈ ps, StartedIn events p
  ordered : ps.Pairwise fun p q ↦ p.trigger < q.trigger

/-- What the voices of an engine are after a history. -/
structure IsPool (events : List Event) (held : List Playing) : Prop where
  voices : (after events).voices = held.map Playing.voice
  few : held.length ≤ maxVoices
  inOrder : InOrder events held

variable {p : Playing} {ps kept held : List Playing}

theorem StartedIn.trigger_lt (h : StartedIn events p) : p.trigger < events.length := by
  obtain ⟨start, data, hevent, -⟩ := h
  exact (List.getElem?_eq_some_iff.mp hevent).1

/-- One event later a voice is as many frames further on as are rendered with the event. -/
theorem StartedIn.step (h : StartedIn events p) (event : Event) :
    StartedIn (events ++ [event]) (p.advanceBy event.frames) := by
  have hlt := h.trigger_lt
  obtain ⟨start, data, hevent, hdata, hage, hposition⟩ := h
  refine ⟨start, data, ?_, ?_, ?_, ?_⟩
  · exact (List.getElem?_append_left hlt).trans hevent
  · show (after ((events ++ [event]).take p.trigger)).sample? _ = _
    rw [List.take_append_of_le_length (Nat.le_of_lt hlt)]
    exact hdata
  · show p.voice.age + event.frames = framesOf ((events ++ [event]).drop (p.trigger + 1))
    rw [List.drop_append_of_le_length hlt, framesOf_concat, hage]
  · show p.voice.position + event.frames = startFrame start data + (p.voice.age + event.frames)
    omega

theorem startedIn_trigger {id : SampleId} {data : SampleData}
    (h : (after events).sample? id = some data) (start : Float32) (envelope : Envelope) :
    StartedIn (events ++ [.command (.trigger id start envelope)])
      ⟨events.length, .start id (startFrame start data) envelope⟩ := by
  refine ⟨start, data, List.getElem?_concat_length, ?_, ?_, rfl⟩
  · rw [List.take_left]
    exact h
  · have hnil : (events ++ [Event.command (.trigger id start envelope)]).drop
        (events.length + 1) = [] :=
      List.drop_eq_nil_of_le (Nat.le_of_eq List.length_append)
    rw [hnil]
    rfl

/-- What is kept of the voices over an event stays in order. -/
theorem InOrder.step (h : InOrder events ps) (hkept : kept.Sublist ps) (event : Event) :
    InOrder (events ++ [event]) (kept.map (Playing.advanceBy event.frames)) where
  known := by
    rw [List.forall_mem_map, after_concat]
    exact fun p hp ↦ isSome_sample?_step (h.known p (hkept.subset hp)) event
  started := by
    rw [List.forall_mem_map]
    exact fun p hp ↦ (h.started p (hkept.subset hp)).step event
  ordered := (h.ordered.sublist hkept).map _ fun _ _ hlt ↦ hlt

/-- A new voice comes after the others. -/
theorem InOrder.trigger (h : InOrder events ps) (hkept : kept.Sublist ps) {id : SampleId}
    {data : SampleData} (hdata : (after events).sample? id = some data) (start : Float32)
    (envelope : Envelope) :
    InOrder (events ++ [.command (.trigger id start envelope)])
      (kept ++ [⟨events.length, .start id (startFrame start data) envelope⟩]) := by
  have hold : InOrder (events ++ [.command (.trigger id start envelope)]) kept := by
    have hsame : kept.map (Playing.advanceBy 0) = kept := List.map_id kept
    exact hsame ▸ h.step hkept (.command (.trigger id start envelope))
  refine ⟨?_, ?_, ?_⟩
  · refine List.forall_mem_append.mpr ⟨hold.known, List.forall_mem_singleton.mpr ?_⟩
    rw [after_concat]
    exact isSome_sample?_step (Option.isSome_of_eq_some hdata) _
  · exact List.forall_mem_append.mpr
      ⟨hold.started, List.forall_mem_singleton.mpr (startedIn_trigger hdata start envelope)⟩
  · refine List.pairwise_append.mpr ⟨hold.ordered, List.pairwise_singleton _ _, fun p hp q hq ↦ ?_⟩
    obtain rfl := List.mem_singleton.mp hq
    exact (h.started p (hkept.subset hp)).trigger_lt

/-! ### What an event does to the pool -/

/-- What an event does to an engine with the given voices. -/
structure PoolRules (e : Engine) (held : List Playing) : Prop where
  /-- Registering a sample changes no voice. -/
  register : ∀ id data, (e.step (.command (.register id data))).voices = e.voices
  /-- A trigger of a sample that is not registered changes nothing. -/
  unknown : ∀ id start envelope, e.sample? id = none →
    e.step (.command (.trigger id start envelope)) = e
  /-- Where there is room, a trigger adds a voice and removes none. -/
  room : ∀ id start envelope data, e.sample? id = some data → e.voices.length < maxVoices →
    (e.step (.command (.trigger id start envelope))).voices =
      e.voices ++ [.start id (startFrame start data) envelope]
  /-- In a full pool it takes the place of the voice that was triggered first. -/
  full : ∀ id start envelope data, e.sample? id = some data → e.voices.length = maxVoices →
    ∃ oldest others, held = oldest :: others ∧ (∀ p ∈ others, oldest.trigger < p.trigger) ∧
      (e.step (.command (.trigger id start envelope))).voices =
        others.map Playing.voice ++ [.start id (startFrame start data) envelope]
  /-- After a block there are the voices that outlast it, in their order. -/
  render : ∀ block, (e.step (.render block)).voices =
    (e.voices.filter (e.Outlasts block.length)).map (Voice.advanceBy block.length)
  /-- Each other voice came to the end of its sample or of its envelope within the block. -/
  ended : ∀ (block : List Frame), ∀ v ∈ e.voices, ¬e.Outlasts block.length v →
    ∃ data, e.sample? v.sample = some data ∧
      ∃ t < block.length, data.size ≤ v.position + t ∨ v.envelope.levelAt (v.age + t) = none

theorem step_trigger_unknown {id : SampleId} (h : e.sample? id = none) (start : Float32)
    (envelope : Envelope) : e.step (.command (.trigger id start envelope)) = e := by
  rw [step, handle, h]

theorem step_trigger_voices {id : SampleId} {data : SampleData} (h : e.sample? id = some data)
    (start : Float32) (envelope : Envelope) :
    (e.step (.command (.trigger id start envelope))).voices =
      addVoice e.voices (.start id (startFrame start data) envelope) := by
  rw [step, handle, h]

theorem step_render_voices (e : Engine) (block : List Frame) : (e.step (.render block)).voices =
    (e.voices.filter (e.Outlasts block.length)).map (Voice.advanceBy block.length) := by
  show (e.mixVoices e.voices (block.map fun _ ↦ Frame.silent)).1 = _
  rw [mixVoices_fst, List.length_map]

theorem IsPool.rules (h : IsPool events held) : PoolRules (after events) held where
  register _ _ := rfl
  unknown id start envelope hunknown := step_trigger_unknown hunknown start envelope
  room id start envelope data hdata hroom := by
    rw [step_trigger_voices hdata, addVoice, if_neg (Nat.ne_of_lt hroom)]
  full id start envelope data hdata hfull := by
    rw [step_trigger_voices hdata, addVoice, if_pos hfull]
    rw [h.voices, List.length_map] at hfull
    obtain ⟨oldest, others, rfl⟩ := List.exists_cons_of_length_pos
      (show 0 < held.length by rw [hfull]; decide)
    exact ⟨oldest, others, rfl, (List.pairwise_cons.mp h.inOrder.ordered).1, by rw [h.voices]; rfl⟩
  render block := step_render_voices _ block
  ended block v hv hends := by
    rw [h.voices] at hv
    obtain ⟨p, hp, rfl⟩ := List.mem_map.mp hv
    obtain ⟨data, hdata⟩ := Option.isSome_iff_exists.mp (h.inOrder.known p hp)
    exact ⟨data, hdata, Voice.exists_end_of_not_outlasts ((outlasts_iff hdata _).not.mp hends)⟩

/-! ### Every history -/

/-- An event that only moves the kept voices on keeps the pool. -/
theorem IsPool.of_kept (h : IsPool events held) (hkept : kept.Sublist held)
    (hvoices : ((after events).step event).voices =
      (kept.map Playing.voice).map (Voice.advanceBy event.frames)) :
    IsPool (events ++ [event]) (kept.map (Playing.advanceBy event.frames)) where
  voices := by
    rw [after_concat, hvoices, List.map_map, List.map_map]
    rfl
  few := by
    rw [List.length_map]
    exact Nat.le_trans hkept.length_le h.few
  inOrder := h.inOrder.step hkept event

/-- A trigger of a registered sample adds a voice to those that are kept. -/
theorem IsPool.trigger (h : IsPool events held) {id : SampleId} {data : SampleData}
    (hdata : (after events).sample? id = some data) (start : Float32) (envelope : Envelope) :
    ∃ held, IsPool (events ++ [.command (.trigger id start envelope)]) held := by
  have hlength : (after events).voices.length = held.length := by rw [h.voices, List.length_map]
  by_cases hfull : held.length = maxVoices
  · obtain ⟨oldest, others, rfl, -, hvoices⟩ :=
      h.rules.full id start envelope data hdata (hlength.trans hfull)
    refine ⟨_, ?_, ?_, h.inOrder.trigger (List.sublist_cons_self oldest others) hdata start envelope⟩
    · rw [after_concat, hvoices, List.map_append]
      rfl
    · rw [List.length_append]
      exact Nat.le_of_eq hfull
  · have hroom : held.length < maxVoices := Nat.lt_of_le_of_ne h.few hfull
    refine ⟨_, ?_, ?_, h.inOrder.trigger (List.Sublist.refl held) hdata start envelope⟩
    · rw [after_concat, h.rules.room id start envelope data hdata (hlength ▸ hroom), h.voices,
        List.map_append]
      rfl
    · rw [List.length_append]
      exact hroom

/-- One event turns a pool into a pool. -/
theorem IsPool.step (h : IsPool events held) (event : Event) :
    ∃ held, IsPool (events ++ [event]) held := by
  have hsame : (held.map Playing.voice).map (Voice.advanceBy 0) = (after events).voices := by
    rw [h.voices]
    exact List.map_id _
  cases event with
  | command c =>
    cases c with
    | register id data => exact ⟨_, h.of_kept (List.Sublist.refl held) hsame.symm⟩
    | trigger id start envelope =>
      rcases hdata : (after events).sample? id with - | data
      · refine ⟨_, h.of_kept (List.Sublist.refl held) ?_⟩
        rw [step_trigger_unknown hdata]
        exact hsame.symm
      · exact h.trigger hdata start envelope
  | render block =>
    refine ⟨_, h.of_kept
      (held.filter_sublist (p := fun p ↦ (after events).Outlasts block.length p.voice)) ?_⟩
    rw [step_render_voices, h.voices, List.filter_map]
    rfl

theorem exists_isPool (events : List Event) : ∃ held, IsPool events held := by
  induction events using List.reverseRecOn with
  | nil => exact ⟨[], rfl, Nat.zero_le _, nofun, nofun, .nil⟩
  | append_singleton events event ih =>
    obtain ⟨held, hheld⟩ := ih
    exact hheld.step event

/-- **The pool of voices.** After any history the engine has for each sample what was registered for
it last, and there are at most `maxVoices` voices. They play registered samples and stand in the
order of their triggers, each as far along as frames were rendered since; and every further event
changes them by the rules. -/
theorem after_pool (events : List Event) :
    (∀ id, (after events).sample? id = (events.filterMap (Event.registered? id)).getLast?) ∧
      ∃ held, IsPool events held ∧ PoolRules (after events) held := by
  obtain ⟨held, hheld⟩ := exists_isPool events
  exact ⟨sample?_after events, held, hheld, hheld.rules⟩

/-- A sample of two frames is registered and triggered once more often than there can be voices, the
first time from the middle. Then a frame is rendered. -/
def crowded : List Event :=
  [.command (.register 7 #[.silent, .silent]),
    .command (.trigger 7 0.5 ⟨0, 0, none, 0, 1, 1, 1⟩)] ++
  List.replicate maxVoices (.command (.trigger 7 0 ⟨0, 0, none, 0, 1, 1, 1⟩)) ++
  [.render [.silent]]

/-- The trigger that comes too many takes the place of the first one, so all voices are at the second
frame. -/
theorem after_pool_crowded :
    (after crowded).sample? 7 = some #[.silent, .silent] ∧
      ∃ held, IsPool crowded held ∧ PoolRules (after crowded) held ∧
        held.length = maxVoices ∧ ∀ p ∈ held, p.voice.position = 1 := by
  obtain ⟨hsamples, held, hheld, hrules⟩ := after_pool crowded
  have hpositions : held.map (·.voice.position) = List.replicate maxVoices 1 := by
    have hvoices : (after crowded).voices.map (·.position) = List.replicate maxVoices 1 := by
      decide +kernel
    rwa [hheld.voices, List.map_map] at hvoices
  have hlength := congrArg List.length hpositions
  rw [List.length_map, List.length_replicate] at hlength
  refine ⟨hsamples 7, held, hheld, hrules, hlength, fun p hp ↦ ?_⟩
  have hmem := List.mem_map_of_mem (f := fun q : Playing ↦ q.voice.position) hp
  rw [hpositions] at hmem
  exact (List.mem_replicate.mp hmem).2

end Engine

end StepSequencer
