import StepSequencer.Sound.Engine

/-!
# Blocks do not show in the sound

A device asks for sound in blocks of whatever length it likes. The engine's sound does not depend on
where one block ends and the next begins, and every frame of it is a sum over the voices that are
alive at that moment.

## What each result rests on

* `render_append` rests on the voice's position and age being all that a block leaves behind
  (`Voice.mix_append`). A voice that ends within a block, on its last frame or on the first frame of
  the next block is gone by the time it would play again, however the frames are cut.
* `render_getElem?` rests on `Voice.mix_getElem?`: a block is mixed frame by frame. The sums are
  taken from the left, in the order of the voices; no law of floating-point numbers is used.
-/

namespace StepSequencer

namespace Voice

variable {data : SampleData}

/-! ### Which frames a voice plays -/

/-- Whether the voice still plays `t` frames from now: the sample reaches that far, and the
envelope has lasted until then. -/
def AliveAt (data : SampleData) (v : Voice) (t : Nat) : Prop :=
  v.position + t < data.size ∧ ∀ u ≤ t, (v.envelope.levelAt (v.age + u)).isSome

instance (data : SampleData) (v : Voice) (t : Nat) : Decidable (v.AliveAt data t) :=
  inferInstanceAs (Decidable (_ ∧ ∀ u, u ≤ t → _))

/-- What the voice adds to one channel `t` frames from now, while it is alive. -/
def share? (data : SampleData) (side : Frame → Float32) (t : Nat) (v : Voice) : Option Float32 :=
  if v.AliveAt data t then
    match data[v.position + t]?, v.envelope.levelAt (v.age + t) with
    | some frame, some gain => some (side frame * gain)
    | _, _ => none
  else none

/-- The value of a channel after a share was added to it, if there is one. -/
def plus (sum : Float32) (share : Option Float32) : Float32 := share.elim sum (sum + ·)

/-- The frame with what the voice plays `t` frames from now mixed in. -/
def addTo (data : SampleData) (t : Nat) (v : Voice) (f : Frame) : Frame :=
  ⟨plus f.left (v.share? data Frame.left t), plus f.right (v.share? data Frame.right t)⟩

theorem current?_eq_some {v : Voice} {gain : Float32} {frame : Frame}
    (h : v.current? data = some (gain, frame)) :
    data[v.position]? = some frame ∧ v.envelope.levelAt v.age = some gain := by
  simp only [current?, Option.bind_eq_bind, Option.bind_eq_some_iff, Option.pure_def,
    Option.some.injEq, Prod.mk.injEq] at h
  obtain ⟨frame', hframe, gain', hgain, rfl, rfl⟩ := h
  exact ⟨hframe, hgain⟩

theorem aliveAt_zero {v : Voice} {current : Float32 × Frame}
    (h : v.current? data = some current) : v.AliveAt data 0 := by
  obtain ⟨hframe, hgain⟩ := current?_eq_some h
  refine ⟨(Array.getElem?_eq_some_iff.mp hframe).1, fun u hu ↦ ?_⟩
  obtain rfl := Nat.le_zero.mp hu
  rw [Nat.add_zero, hgain]
  rfl

/-- A voice that has nothing to play now is never alive again. -/
theorem not_aliveAt {v : Voice} (h : v.current? data = none) (t : Nat) : ¬v.AliveAt data t := by
  rintro ⟨hlt, hlevels⟩
  have hframe : data[v.position]? = some data[v.position] := Array.getElem?_eq_getElem (by omega)
  obtain ⟨gain, hgain⟩ := Option.isSome_iff_exists.mp (hlevels 0 (Nat.zero_le t))
  rw [Nat.add_zero] at hgain
  rw [current?, hframe, hgain] at h
  cases h

/-- A voice that plays now is alive later if its next frame is alive then. -/
theorem aliveAt_succ_iff {v : Voice} (h : v.AliveAt data 0) (t : Nat) :
    v.AliveAt data (t + 1) ↔ v.advance.AliveAt data t := by
  have hposition : v.position + 1 + t = v.position + (t + 1) := by omega
  constructor
  · rintro ⟨hlt, hlevels⟩
    refine ⟨hposition ▸ hlt, fun u hu ↦ ?_⟩
    have hage : v.age + 1 + u = v.age + (u + 1) := by omega
    exact hage ▸ hlevels (u + 1) (by omega)
  · rintro ⟨hlt, hlevels⟩
    refine ⟨hposition ▸ hlt, fun u hu ↦ ?_⟩
    rcases u with - | u
    · exact h.2 0 (Nat.le_refl 0)
    · have hage : v.age + 1 + u = v.age + (u + 1) := by omega
      exact hage ▸ hlevels u (by omega)

theorem share?_of_current? {v : Voice} {gain : Float32} {frame : Frame}
    (h : v.current? data = some (gain, frame)) (side : Frame → Float32) :
    v.share? data side 0 = some (side frame * gain) := by
  obtain ⟨hframe, hgain⟩ := current?_eq_some h
  rw [share?, if_pos (aliveAt_zero h), Nat.add_zero, Nat.add_zero, hframe, hgain]

theorem share?_succ {v : Voice} (h : v.AliveAt data 0) (side : Frame → Float32) (t : Nat) :
    v.share? data side (t + 1) = v.advance.share? data side t := by
  have hposition : v.position + (t + 1) = v.advance.position + t := by
    show v.position + (t + 1) = v.position + 1 + t
    omega
  have hage : v.age + (t + 1) = v.advance.age + t := by
    show v.age + (t + 1) = v.age + 1 + t
    omega
  rw [share?, share?, hposition, hage]
  simp only [aliveAt_succ_iff h t]
  rfl

/-! ### One voice over a block -/

/-- A block is mixed frame by frame. -/
theorem mix_getElem? (v : Voice) (block : List Frame) (t : Nat) :
    (v.mix data block).2[t]? = block[t]?.map (v.addTo data t) := by
  induction block generalizing v t with
  | nil => rfl
  | cons f block ih =>
    rcases h : v.current? data with - | ⟨gain, frame⟩
    · have hsame : v.addTo data t = id := by
        funext f
        rw [addTo, share?, share?, if_neg (not_aliveAt h t), if_neg (not_aliveAt h t)]
        rfl
      rw [mix, h, hsame, Option.map_id]
      rfl
    · rw [mix, h]
      rcases t with - | t
      · show some (f.mixIn gain frame) = some (v.addTo data 0 f)
        rw [addTo, share?_of_current? h, share?_of_current? h]
        rfl
      · show (v.advance.mix data block).2[t]? = block[t]?.map (v.addTo data (t + 1))
        have hadd : v.addTo data (t + 1) = v.advance.addTo data t := by
          funext f
          rw [addTo, share?_succ (aliveAt_zero h), share?_succ (aliveAt_zero h)]
          rfl
        rw [ih, hadd]

/-- A voice plays one sample all along. -/
theorem sample_of_mix {v after : Voice} {block mixed : List Frame}
    (h : v.mix data block = (some after, mixed)) : after.sample = v.sample := by
  induction block generalizing v mixed with
  | nil =>
    obtain rfl := Option.some.inj (Prod.mk.inj h).1
    rfl
  | cons f block ih =>
    rcases hc : v.current? data with - | ⟨gain, frame⟩ <;> rw [mix, hc] at h
    · cases h
    · rcases hm : v.advance.mix data block with ⟨rest, mixed'⟩
      rw [hm] at h
      obtain ⟨rfl, -⟩ := Prod.mk.inj h
      have hsample : after.sample = v.advance.sample := ih hm
      exact hsample

/-- What a voice does over two blocks, when nothing happens in between. -/
def mixTwo (data : SampleData) (v : Voice) (a b : List Frame) : Option Voice × List Frame :=
  match v.mix data a with
  | (none, mixed) => (none, mixed ++ b)
  | (some after, mixed) => ((after.mix data b).1, mixed ++ (after.mix data b).2)

/-- A voice does over two blocks what it does over both as one. -/
theorem mix_append (v : Voice) (a b : List Frame) : v.mix data (a ++ b) = v.mixTwo data a b := by
  induction a generalizing v with
  | nil => rfl
  | cons f a ih =>
    rw [List.cons_append, mixTwo, mix, mix]
    rcases v.current? data with - | ⟨gain, frame⟩
    · rfl
    · show ((v.advance.mix data (a ++ b)).1,
        f.mixIn gain frame :: (v.advance.mix data (a ++ b)).2) = _
      rw [ih, mixTwo]
      rcases v.advance.mix data a with ⟨- | after, mixed⟩ <;> rfl

end Voice

namespace Engine

/-! ### All voices over a block -/

/-- What the voices add to one channel `t` frames from now, in their order. -/
def shares (e : Engine) (side : Frame → Float32) (t : Nat) (voices : List Voice) : List Float32 :=
  voices.filterMap fun v ↦ (e.sample? v.sample).bind fun data ↦ v.share? data side t

/-- The sum of what the voices add to one channel, taken from the left. -/
def sumFrom (e : Engine) (side : Frame → Float32) (t : Nat) (start : Float32)
    (voices : List Voice) : Float32 :=
  (e.shares side t voices).foldl (· + ·) start

theorem sumFrom_cons (e : Engine) (side : Frame → Float32) (t : Nat) (start : Float32) (v : Voice)
    (voices : List Voice) :
    e.sumFrom side t start (v :: voices) =
      e.sumFrom side t
        (Voice.plus start ((e.sample? v.sample).bind fun data ↦ v.share? data side t)) voices := by
  rw [sumFrom, shares, List.filterMap_cons]
  rcases (e.sample? v.sample).bind fun data ↦ v.share? data side t with - | x <;> rfl

/-- All voices are mixed frame by frame. -/
theorem mixVoices_getElem? (e : Engine) (voices : List Voice) (block : List Frame) (t : Nat) :
    (e.mixVoices voices block).2[t]? = block[t]?.map fun f ↦
      ⟨e.sumFrom Frame.left t f.left voices, e.sumFrom Frame.right t f.right voices⟩ := by
  induction voices generalizing block with
  | nil => exact Option.map_id.symm ▸ rfl
  | cons v voices ih =>
    simp only [sumFrom_cons]
    rcases h : e.sample? v.sample with - | data
    · rw [mixVoices, h]
      exact ih block
    · rw [mixVoices, h]
      show (e.mixVoices voices (v.mix data block).2).2[t]? = _
      rw [ih, Voice.mix_getElem?, Option.map_map]
      rfl

/-- Mixing all voices into two blocks, one after the other, is mixing them into both as one. -/
theorem mixVoices_append (e : Engine) (voices : List Voice) (a b : List Frame) :
    e.mixVoices voices (a ++ b) =
      ((e.mixVoices (e.mixVoices voices a).1 b).1,
        (e.mixVoices voices a).2 ++ (e.mixVoices (e.mixVoices voices a).1 b).2) := by
  induction voices generalizing a b with
  | nil => rfl
  | cons v voices ih =>
    rcases h : e.sample? v.sample with - | data
    · simp only [mixVoices, h]
      exact ih a b
    · simp only [mixVoices, h, Voice.mix_append, Voice.mixTwo]
      rcases hm : v.mix data a with ⟨- | after, mixed⟩
      · exact ih mixed b
      · -- the voice goes on, and still plays the sample it played
        have hsample : e.sample? after.sample = some data := by rw [Voice.sample_of_mix hm, h]
        simp only [Option.toList_some, List.singleton_append, mixVoices, hsample, ih]

/-- What a block held before does not matter, only how long it is. -/
theorem render_congr (e : Engine) {a b : List Frame} (h : a.length = b.length) :
    e.render a = e.render b := by
  have hsilent : (a.map fun _ ↦ Frame.silent) = b.map fun _ ↦ Frame.silent := by
    rw [List.map_const', List.map_const', h]
  rw [render, render, hsilent]

/-- Mixing looks at nothing of the engine but its samples. -/
theorem mixVoices_of_samples (e : Engine) (others voices : List Voice) (block : List Frame) :
    { e with voices := others }.mixVoices voices block = e.mixVoices voices block := by
  induction voices generalizing block with
  | nil => rfl
  | cons v voices ih =>
    have hsample : { e with voices := others }.sample? v.sample = e.sample? v.sample := rfl
    rw [mixVoices, mixVoices, hsample]
    rcases e.sample? v.sample with - | data <;> simp only [ih]

/-- **Two blocks** sound like one, and leave the same engine. -/
theorem render_append (e : Engine) (a b : List Frame) :
    e.render (a ++ b) =
      (((e.render a).1.render b).1, (e.render a).2 ++ ((e.render a).1.render b).2) := by
  simp only [render, List.map_append, mixVoices_append, mixVoices_of_samples]

/-- The engine after some blocks, and their sound one after the other. -/
def renderAll (e : Engine) : List (List Frame) → Engine × List Frame
  | [] => (e, [])
  | block :: blocks =>
    let (e, sound) := e.render block
    let (e, more) := e.renderAll blocks
    (e, sound ++ more)

/-- What one frame of the sound is: on each channel the sum, from nothing, of what the voices add,
in their order. -/
def frameAt (e : Engine) (t : Nat) : Frame :=
  ⟨e.sumFrom Frame.left t 0 e.voices, e.sumFrom Frame.right t 0 e.voices⟩

theorem render_getElem? (e : Engine) (block : List Frame) (t : Nat) :
    (e.render block).2[t]? = block[t]?.map fun _ ↦ e.frameAt t := by
  show (e.mixVoices e.voices (block.map fun _ ↦ Frame.silent)).2[t]? = _
  rw [mixVoices_getElem?, List.getElem?_map, Option.map_map]
  rfl

theorem renderAll_cons (e : Engine) (block : List Frame) (blocks : List (List Frame)) :
    e.renderAll (block :: blocks) =
      (((e.render block).1.renderAll blocks).1,
        (e.render block).2 ++ ((e.render block).1.renderAll blocks).2) := rfl

/-- Any blocks after a first one sound like one block together with it. -/
theorem renderAll_eq_render_flatten (e : Engine) (block : List Frame)
    (blocks : List (List Frame)) :
    e.renderAll (block :: blocks) = e.render (block :: blocks).flatten := by
  induction blocks generalizing e block with
  | nil =>
    rw [renderAll_cons, List.flatten_cons, List.flatten_nil, List.append_nil]
    show ((e.render block).1, (e.render block).2 ++ []) = e.render block
    rw [List.append_nil]
  | cons next blocks ih =>
    rw [renderAll_cons, ih]
    exact (e.render_append block (next :: blocks).flatten).symm

/-- **Blocks.** However the frames are cut into blocks, and whatever the blocks held before, the
engine ends up the same and the sound is that of a single block; and each frame of it is the sum of
what the voices alive at that moment add to it. -/
theorem renderAll_eq_render (e : Engine) (first : List Frame) (rest : List (List Frame))
    (whole : List Frame) (h : whole.length = (first :: rest).flatten.length) :
    e.renderAll (first :: rest) = e.render whole ∧
      (e.render whole).2 = (List.range whole.length).map e.frameAt := by
  refine ⟨?_, ?_⟩
  · rw [renderAll_eq_render_flatten]
    exact e.render_congr h.symm
  · refine List.ext_getElem? fun t ↦ ?_
    rw [render_getElem?, List.getElem?_map]
    rcases Nat.lt_or_ge t whole.length with hlt | hge
    · rw [List.getElem?_eq_getElem hlt, List.getElem?_range hlt]
      rfl
    · rw [List.getElem?_eq_none hge, List.getElem?_eq_none (by rwa [List.length_range])]
      rfl

/-- A voice whose sample runs out between the second and the third block, the first being empty. -/
theorem renderAll_eq_render_cut :
    let e : Engine :=
      ⟨[(0, #[⟨1, -1⟩, ⟨0.5, 0.5⟩])], [.start 0 0 ⟨0, 0, none, 0, 1, 1, 1⟩]⟩
    e.renderAll [[], [.silent, .silent], [.silent]] = e.render (List.replicate 3 .silent) ∧
      (e.render (List.replicate 3 .silent)).2 = (List.range 3).map e.frameAt :=
  renderAll_eq_render _ [] [[.silent, .silent], [.silent]] _ rfl

end Engine

end StepSequencer
