import StepSequencer.Proofs.Sound.Blocks
import StepSequencer.Sound.Output

/-!
# What a call of the device writes

The device hands over its data, of whatever length, for a number of channels. `interleave_eq` says
what is written: the frames, each spread over the channels, one after the other, and then what was
there before.

`Output.fillInBounds?` takes the same steps and fails where one of them reaches beyond the frames or
the data that there are. It never fails (`Output.fillInBounds?_eq`): the scratch frames are always
enough, and the frames that are rendered always fit.

The engine fills a block from nothing, so the scratch frames show in nothing that a device gets, in
one call or in a row of calls (`Output.fillAll_congr`).
-/

namespace StepSequencer

/-! ### Rendered frames -/

namespace Engine

theorem length_render (e : Engine) (block : List Frame) :
    (e.render block).2.length = block.length := by
  have hends (t : Nat) : (e.render block).2.length ≤ t ↔ block.length ≤ t := by
    rw [← List.getElem?_eq_none_iff, render_getElem?, Option.map_eq_none_iff,
      List.getElem?_eq_none_iff]
  exact Nat.le_antisymm ((hends _).mpr (Nat.le_refl _)) ((hends _).mp (Nat.le_refl _))

end Engine

/-! ### Frames among the data -/

/-- Frames that fit are written one after the other, and what follows them stays. -/
theorem interleave_eq {channels : Nat} {frames : List Frame} {data : List Float32}
    (h : frames.length * channels ≤ data.length) :
    interleave channels frames data =
      frames.flatMap (·.spread channels) ++ data.drop (frames.length * channels) := by
  induction frames generalizing data with
  | nil => rw [List.length_nil, Nat.zero_mul]; rfl
  | cons f frames ih =>
    rw [List.length_cons, Nat.succ_mul] at h
    have hroom : ¬(data.take channels).length < channels := by
      rw [List.length_take]
      omega
    have hrest : frames.length * channels ≤ (data.drop channels).length := by
      rw [List.length_drop]
      omega
    rw [interleave, if_neg hroom, ih hrest, List.drop_drop, List.flatMap_cons, List.append_assoc,
      List.length_cons, Nat.succ_mul, Nat.add_comm channels]

theorem length_flatMap_spread (channels : Nat) (frames : List Frame) :
    (frames.flatMap (·.spread channels)).length = frames.length * channels := by
  simp [List.length_flatMap, List.map_const']

/-- The values of a frame stand together. -/
theorem getElem?_flatMap_spread {channels i : Nat} (hi : i < channels) (frames : List Frame)
    (j : Nat) : (frames.flatMap (·.spread channels))[j * channels + i]? =
      frames[j]?.bind fun f ↦ (f.spread channels)[i]? := by
  induction frames generalizing j with
  | nil => rfl
  | cons f frames ih =>
    rw [List.flatMap_cons]
    rcases j with - | j
    · rw [Nat.zero_mul, Nat.zero_add, List.getElem?_append_left (by rwa [f.length_spread])]
      rfl
    · have hplace : (j + 1) * channels + i = channels + (j * channels + i) := by
        rw [Nat.succ_mul]
        omega
      rw [hplace, List.getElem?_append_right (by rw [f.length_spread]; omega), f.length_spread,
        Nat.add_sub_cancel_left, ih]
      rfl

/-- Of two channels or more, the first two have the sides and the others silence. -/
theorem getElem?_spread {channels : Nat} (f : Frame) (h : 2 ≤ channels) :
    (f.spread channels)[0]? = some f.left ∧ (f.spread channels)[1]? = some f.right ∧
      ∀ i, 2 ≤ i → i < channels → (f.spread channels)[i]? = some 0 := by
  obtain ⟨extra, rfl⟩ := Nat.exists_eq_add_of_le' h
  refine ⟨rfl, rfl, fun i htwo hi ↦ ?_⟩
  obtain ⟨k, rfl⟩ := Nat.exists_eq_add_of_le' htwo
  rw [Frame.spread, List.getElem?_cons_succ, List.getElem?_cons_succ, List.getElem?_replicate,
    if_pos (by omega)]

/-- Each frame that is written stands at its place, with one value per channel. -/
theorem getElem?_interleave {channels : Nat} {frames : List Frame} {data : List Float32}
    (h : frames.length * channels ≤ data.length) {j i : Nat} (hi : i < channels) {f : Frame}
    (hf : frames[j]? = some f) :
    (interleave channels frames data)[j * channels + i]? = (f.spread channels)[i]? := by
  have hj : j + 1 ≤ frames.length := (List.getElem?_eq_some_iff.mp hf).1
  have hplace : j * channels + i < frames.length * channels := by
    have hle := Nat.mul_le_mul_right channels hj
    rw [Nat.succ_mul] at hle
    omega
  rw [interleave_eq h, List.getElem?_append_left (by rwa [length_flatMap_spread]),
    getElem?_flatMap_spread hi, hf]
  rfl

/-- What follows the frames keeps its old values. -/
theorem drop_interleave {channels : Nat} {frames : List Frame} {data : List Float32}
    (h : frames.length * channels ≤ data.length) :
    (interleave channels frames data).drop (frames.length * channels) =
      data.drop (frames.length * channels) := by
  rw [interleave_eq h, ← length_flatMap_spread, List.drop_left]

/-! ### Access that may fail -/

/-- The first frames, if there are as many. -/
def firstFrames? (frames : List Frame) (count : Nat) : Option (List Frame) :=
  if count ≤ frames.length then some (frames.take count) else none

/-- The data with some values written from a place on, one by one, if all their places are there. -/
def writeFrom? (place : Nat) : List Float32 → List Float32 → Option (List Float32)
  | [], data => some data
  | v :: values, data =>
    if place < data.length then writeFrom? (place + 1) values (data.set place v) else none

/-- The data with some frames written from a place on, if all their places are there. -/
def writeFrames? (channels place : Nat) : List Frame → List Float32 → Option (List Float32)
  | [], data => some data
  | f :: frames, data =>
    (writeFrom? place (f.spread channels) data).bind
      (writeFrames? channels (place + channels) frames)

theorem writeFrom?_eq (before old values after : List Float32) (h : old.length = values.length) :
    writeFrom? before.length values (before ++ (old ++ after)) =
      some (before ++ (values ++ after)) := by
  induction values generalizing before old with
  | nil =>
    obtain rfl := List.length_eq_zero_iff.mp h
    rfl
  | cons v values ih =>
    obtain ⟨d, old, rfl⟩ := List.exists_cons_of_length_eq_add_one h
    have hplace : before.length < (before ++ (d :: old ++ after)).length := by
      simp only [List.length_append, List.length_cons]
      omega
    have hset : (before ++ (d :: old ++ after)).set before.length v =
        (before ++ [v]) ++ (old ++ after) := by
      rw [List.set_append_right _ _ (Nat.le_refl _), Nat.sub_self]
      simp
    have hlength : (before ++ [v]).length = before.length + 1 := List.length_append
    rw [writeFrom?, if_pos hplace, hset, ← hlength, ih _ old (Nat.succ.inj h)]
    simp

theorem writeFrames?_eq {channels : Nat} (before data : List Float32) {frames : List Frame}
    (h : frames.length * channels ≤ data.length) :
    writeFrames? channels before.length frames (before ++ data) =
      some (before ++ interleave channels frames data) := by
  induction frames generalizing before data with
  | nil => rfl
  | cons f frames ih =>
    rw [List.length_cons, Nat.succ_mul] at h
    have hroom : (data.take channels).length = channels := by
      rw [List.length_take]
      omega
    have hrest : frames.length * channels ≤ (data.drop channels).length := by
      rw [List.length_drop]
      omega
    have hwrite := writeFrom?_eq before (data.take channels) (f.spread channels)
      (data.drop channels) (by rw [hroom, f.length_spread])
    have hlength : (before ++ f.spread channels).length = before.length + channels := by
      rw [List.length_append, f.length_spread]
    rw [List.take_append_drop, ← List.append_assoc] at hwrite
    rw [writeFrames?, hwrite, Option.bind_some, ← hlength, ih _ _ hrest, interleave,
      if_neg (Nat.not_lt.mpr (Nat.le_of_eq hroom.symm)), List.append_assoc]

namespace Output

/-- What a call of the device does, if no access reaches beyond the frames or the data. -/
def fillInBounds? (o : Output) (commands : List SoundCommand) (data : List Float32) :
    Option (Output × List Float32) := do
  let engine := commands.foldl Engine.handle o.engine
  let count := frameCount o.config.channels data.length
  let scratch := grown o.scratch count
  let block ← firstFrames? scratch count
  let (engine, frames) := engine.render block
  let data ← writeFrames? o.config.channels 0 frames data
  return ({ o with engine := engine, scratch := frames ++ scratch.drop count }, data)

/-! ### One call and many -/

variable {o : Output} {commands : List SoundCommand} {data : List Float32}

theorem le_length_grown (scratch : List Frame) (count : Nat) :
    count ≤ (grown scratch count).length := by
  rw [grown, List.length_append, List.length_replicate]
  omega

theorem frameCount_of_pos {channels : Nat} (h : 1 ≤ channels) (size : Nat) :
    frameCount channels size = size / channels := by
  rw [frameCount, Nat.max_eq_left h]

/-- The frames that are rendered fit the data. -/
theorem frameCount_mul_le (channels size : Nat) : frameCount channels size * channels ≤ size :=
  Nat.le_trans (Nat.mul_le_mul_left _ (Nat.le_max_left channels 1)) (Nat.div_mul_le_self _ _)

/-- The engine that renders, after the commands that were waiting. -/
def commanded (o : Output) (commands : List SoundCommand) : Engine :=
  commands.foldl Engine.handle o.engine

/-- The sound of a call: as many frames as fit, filled from silence. -/
def sound (o : Output) (commands : List SoundCommand) (size : Nat) : Engine × List Frame :=
  (o.commanded commands).render (List.replicate (frameCount o.config.channels size) .silent)

theorem length_sound (o : Output) (commands : List SoundCommand) (size : Nat) :
    (o.sound commands size).2.length = frameCount o.config.channels size := by
  rw [sound, Engine.length_render, List.length_replicate]

/-- What the scratch frames held does not show in the block that is rendered into them. -/
theorem render_grown (e : Engine) (scratch : List Frame) (count : Nat) :
    e.render ((grown scratch count).take count) = e.render (List.replicate count .silent) := by
  refine e.render_congr ?_
  rw [List.length_take, List.length_replicate, Nat.min_eq_left (le_length_grown scratch count)]

theorem fill_engine (o : Output) (commands : List SoundCommand) (data : List Float32) :
    (o.fill commands data).1.engine = (o.sound commands data.length).1 :=
  congrArg Prod.fst (render_grown _ o.scratch _)

theorem fill_data (o : Output) (commands : List SoundCommand) (data : List Float32) :
    (o.fill commands data).2 =
      interleave o.config.channels (o.sound commands data.length).2 data := by
  rw [sound, ← render_grown _ o.scratch]
  rfl

theorem sound_fits (o : Output) (commands : List SoundCommand) (data : List Float32) :
    (o.sound commands data.length).2.length * o.config.channels ≤ data.length := by
  rw [length_sound]
  exact frameCount_mul_le _ _

/-- No access of a call reaches beyond the frames or the data. -/
theorem fillInBounds?_eq (o : Output) (commands : List SoundCommand) (data : List Float32) :
    o.fillInBounds? commands data = some (o.fill commands data) := by
  have hblock : firstFrames? (grown o.scratch (frameCount o.config.channels data.length))
      (frameCount o.config.channels data.length) =
        some ((grown o.scratch (frameCount o.config.channels data.length)).take
          (frameCount o.config.channels data.length)) :=
    if_pos (le_length_grown _ _)
  have hfits := o.sound_fits commands data
  rw [sound, ← render_grown _ o.scratch] at hfits
  have hwrite := writeFrames?_eq [] data hfits
  rw [List.nil_append, List.nil_append, List.length_nil] at hwrite
  simp only [fillInBounds?, hblock, Option.bind_eq_bind, Option.bind_some]
  exact hwrite ▸ rfl

/-- What the device's data hold after each of some calls, given with the commands that wait and the
data before. -/
def fillAll (o : Output) : List (List SoundCommand × List Float32) → List (List Float32)
  | [] => []
  | (commands, data) :: calls =>
    (o.fill commands data).2 :: (o.fill commands data).1.fillAll calls

/-- A call gives the same data and leaves the same engine whatever the scratch frames are. -/
theorem fill_congr (o : Output) (scratch : List Frame) (commands : List SoundCommand)
    (data : List Float32) :
    ({ o with scratch }.fill commands data).1.engine = (o.fill commands data).1.engine ∧
      ({ o with scratch }.fill commands data).2 = (o.fill commands data).2 := by
  constructor
  · rw [fill_engine, fill_engine]
    rfl
  · rw [fill_data, fill_data]
    rfl

/-- So does a row of calls. -/
theorem fillAll_congr (o : Output) (scratch : List Frame)
    (calls : List (List SoundCommand × List Float32)) :
    { o with scratch }.fillAll calls = o.fillAll calls := by
  induction calls generalizing o scratch with
  | nil => rfl
  | cons call calls ih =>
    obtain ⟨commands, data⟩ := call
    obtain ⟨hengine, hdata⟩ := o.fill_congr scratch commands data
    rw [fillAll, fillAll, hdata]
    have hafter : ({ o with scratch }.fill commands data).1 =
        { (o.fill commands data).1 with
          scratch := ({ o with scratch }.fill commands data).1.scratch } :=
      congrArg (Output.mk o.config · _) hengine
    rw [hafter, ih]

/-- **A call of the device.** The waiting commands reach the engine in their order, then as many
frames are rendered as fit the data whole. A single channel gets the mean of each, more channels its
two sides and then silence. What is left of the data keeps its old values. No access reaches beyond
the frames or the data, and the scratch frames do not show. -/
theorem fill_wholeFrames (o : Output) (commands : List SoundCommand) (data : List Float32)
    (hchannels : 1 ≤ o.config.channels) :
    let channels := o.config.channels
    let count := data.length / channels
    let rendered := (commands.foldl Engine.handle o.engine).render (List.replicate count .silent)
    let result := o.fill commands data
    result.1.engine = rendered.1 ∧ rendered.2.length = count ∧
    (∀ j < count, ∃ f, rendered.2[j]? = some f ∧
      (channels = 1 → result.2[j]? = some f.mono) ∧
      (2 ≤ channels → result.2[j * channels]? = some f.left ∧
        result.2[j * channels + 1]? = some f.right ∧
        ∀ i, 2 ≤ i → i < channels → result.2[j * channels + i]? = some 0)) ∧
    result.2.length = data.length ∧
    (data.drop (count * channels)).length = data.length % channels ∧
    result.2.drop (count * channels) = data.drop (count * channels) ∧
    o.fillInBounds? commands data = some result ∧
    ∀ scratch : List Frame,
      ({ o with scratch }.fill commands data).1.engine = result.1.engine ∧
      ({ o with scratch }.fill commands data).2 = result.2 ∧
      ∀ calls, { o with scratch }.fillAll calls = o.fillAll calls := by
  intro channels count rendered result
  have hcount : frameCount channels data.length = count := frameCount_of_pos hchannels _
  have hrendered : o.sound commands data.length = rendered := by rw [sound, hcount]; rfl
  have hresult : result.2 = interleave channels rendered.2 data := by rw [fill_data, hrendered]
  have hlength : rendered.2.length = count := by rw [← hrendered, length_sound, hcount]
  have hfits : rendered.2.length * channels ≤ data.length := hrendered ▸ o.sound_fits commands data
  refine ⟨by rw [fill_engine, hrendered], hlength, fun j hj ↦ ?_, ?_, ?_, ?_,
    o.fillInBounds?_eq commands data, fun scratch ↦ ?_⟩
  · obtain ⟨f, hf⟩ : ∃ f, rendered.2[j]? = some f :=
      ⟨_, List.getElem?_eq_getElem (hlength ▸ hj)⟩
    have hvalue {i : Nat} (hi : i < channels) :
        result.2[j * channels + i]? = (f.spread channels)[i]? := by
      rw [hresult, getElem?_interleave hfits hi hf]
    -- the frame is spread over the places of its channels
    refine ⟨f, hf, fun hone ↦ ?_, fun htwo ↦ ?_⟩
    · have hmono := hvalue (i := 0) (by omega)
      rw [hone, Nat.mul_one, Nat.add_zero] at hmono
      exact hmono
    · obtain ⟨hleft, hright, hsilent⟩ := getElem?_spread f htwo
      exact ⟨(hvalue (by omega)).trans hleft, (hvalue (by omega)).trans hright,
        fun i hi hlt ↦ (hvalue hlt).trans (hsilent i hi hlt)⟩
  · rw [hresult, length_interleave]
  · rw [List.length_drop, Nat.mul_comm]
    exact Nat.sub_eq_of_eq_add (Nat.mod_add_div _ _).symm
  · rw [hresult, ← hlength]
    exact drop_interleave hfits
  · obtain ⟨hengine, hdata⟩ := o.fill_congr scratch commands data
    exact ⟨hengine, hdata, o.fillAll_congr scratch⟩

/-- Three channels and data for two frames and two values more. There is room for one frame, which
held something before, and the sample that is triggered was registered in the same call. -/
theorem fill_wholeFrames_three :
    let o : Output := ⟨⟨1000, 3, .float 32⟩, .silent, [⟨7, 7⟩]⟩
    let commands : List SoundCommand := [.register 0 #[⟨1, -1⟩, ⟨0.5, 0.25⟩, ⟨0, 1⟩],
      .trigger 0 0 ⟨0, 0, none, 0, 1, 1, 1⟩]
    let result := o.fill commands (List.replicate 8 9)
    1 ≤ o.config.channels ∧ result.2 = [1, -1, 0, 0.5, 0.25, 0, 9, 9] ∧
    (∃ f : Frame,
      result.2[3]? = some f.left ∧ result.2[4]? = some f.right ∧ result.2[5]? = some 0) ∧
    result.2.drop 6 = [9, 9] ∧
    o.fillInBounds? commands (List.replicate 8 9) = some result := by
  intro o commands result
  have hchannels : 1 ≤ o.config.channels := by decide
  obtain ⟨-, -, hframes, -, -, hrest, hinBounds, -⟩ :=
    fill_wholeFrames o commands (List.replicate 8 9) hchannels
  obtain ⟨f, -, -, hsides⟩ := hframes 1 (by decide)
  obtain ⟨hleft, hright, hfurther⟩ := hsides (by decide)
  have hwritten : (List.replicate 8 (9 : Float32)).length / o.config.channels * o.config.channels =
      6 := by decide
  rw [hwritten] at hrest
  exact ⟨hchannels, by decide, ⟨f, hleft, hright, hfurther 2 (by decide) (by decide)⟩,
    hrest.trans rfl, hinBounds⟩

end Output

end StepSequencer
