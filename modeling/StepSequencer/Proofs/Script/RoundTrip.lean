import StepSequencer.Proofs.Script.ReadBack
import StepSequencer.Proofs.Script.Readings
import StepSequencer.Proofs.Script.UncheckedScript
import StepSequencer.Proofs.Track.Options
import StepSequencer.Proofs.Track.Validity

/-!
# Written tracks, read back

A track that is written as a script and read again is the same track, but for three things. Its
folder slots come first, the bundled ones are numbered after them, and a folder that no slot plays
from is forgotten. Comparisons may come back simplified, so each rule gives the same answers as long
as the whole numbers in its comparisons stay in bounds.

The sections follow the reader through the settings, the functions, the sample lines and the loops
of a script.
-/

namespace StepSequencer

open Script

/-! ### What comes back -/

/-- The slots, numbered one after the other from `next` on. -/
def Slot.numberedFrom (next : Nat) : List Slot → List Slot
  | [] => []
  | s :: ss => { s with id := UInt16.ofNat next } :: numberedFrom (next + 1) ss

/-- The slot is the same, except that its rule may be written in another way: it gives the same
answers in bounds. -/
structure Slot.Matches (s s' : Slot) : Prop where
  id : s'.id = s.id
  source : s'.source = s.source
  label : s'.label = s.label
  preset : s'.preset = s.preset
  outcome : ∀ x, s.rule.InBounds x → s'.rule.outcome x = s.rule.outcome x

/-- The track is the same, with its folder slots first and the bundled ones numbered after them. -/
structure Track.Matches (t t' : Track) : Prop where
  name : t'.name = t.name
  samplesDir : t'.samplesDir = if t.slots.any (·.source.isFolder) then t.samplesDir else ""
  bpm : t'.bpm = t.bpm
  stepCount : t'.stepCount = t.stepCount
  beatsPerStep : t'.beatsPerStep = t.beatsPerStep
  slots : List.Forall₂ Slot.Matches
    (t.slots.filter (·.source.isFolder) ++
      Slot.numberedFrom (firstBundled t.slots) (t.slots.filter (!·.source.isFolder))) t'.slots

namespace Script

open Attempts

/-! ### Settings -/

/-- What the settings of a track's script leave, with some functions. -/
def scriptEnv (t : Track) (bpm beats : Float) (functions : List (String × Rule)) : Env where
  strings := [("samps", t.samplesDir)]
  numbers := []
  ranges := [("downbeat_count", t.stepCount)]
  settings := [("downbeat_time", beats)]
  bpm := some bpm
  functions := functions

variable {t : Track} {bpm beats : Float} {functions : List (String × Rule)}

theorem gives_samplesDir (env : Env) (line : Nat) (dir : String) :
    Gives (env.statement (.assign line "samps" (.str dir)))
      { env with strings := ("samps", dir) :: env.strings } :=
  Gives.inContext (gives_pure _)

theorem gives_bpm (env : Env) (line : Nat) {e : Expr} {x : Float} (h : env.number e = .ok x) :
    Gives (env.statement (.command line "use_bpm" [e] [])) { env with bpm := some x } :=
  Gives.inContext ((gives_within h).bind (gives_pure _))

theorem gives_beats (env : Env) (line : Nat) {e : Expr} {x : Float} (h : env.number e = .ok x) :
    Gives (env.statement (.command line "set" [.symbol "downbeat_time", e] []))
      { env with settings := ("downbeat_time", x) :: env.settings } :=
  Gives.inContext ((gives_within h).bind (gives_pure _))

/-- A range from zero in steps of one has its end as its length. -/
theorem rangeLength_ofNat (name : String) {n : UInt32} (h : n ≠ 0) :
    rangeLength name [Word.toFloat 0, Word.toFloat (Int64.ofNat n.toNat), Word.toFloat 1] =
      .ok n := by
  have hpos : 0 < n.toNat := Nat.pos_of_ne_zero fun hzero ↦ h (UInt32.toNat_inj.mp hzero)
  have hstart : (Word.toFloat 0 != 0) = false := by decide +kernel
  have hstep : (Word.toFloat 1 != 1) = false := by decide +kernel
  have hstop : ¬Word.toFloat (Int64.ofNat n.toNat) < 1 := Word.not_toFloat_lt_one hpos n.toNat_lt
  rw [rangeLength, rangeLength.length, hstart, hstep, Word.toUInt32_toFloat hpos n.toNat_lt,
    UInt32.ofNat_toNat, Bool.or_self, Bool.false_or, decide_eq_false hstop]
  rfl

theorem gives_stepCount (env : Env) (line : Nat) {n : UInt32} (h : n ≠ 0) :
    Gives (env.statement (.assign line "downbeat_count"
      (.call "range" [.int 0, .int (Int64.ofNat n.toNat), .int 1])))
      { env with ranges := ("downbeat_count", n) :: env.ranges } := by
  have hbounds : [Expr.int 0, .int (Int64.ofNat n.toNat), .int 1].mapM env.number =
      .ok [Word.toFloat 0, Word.toFloat (Int64.ofNat n.toNat), Word.toFloat 1] := by
    simp only [List.mapM_cons, List.mapM_nil, Env.number]
    rfl
  exact Gives.inContext ((gives_within hbounds).bind
    ((gives_within (rangeLength_ofNat _ h)).bind (gives_pure _)))

/-- The settings of a track's script. -/
theorem gives_settings (hsteps : t.stepCount ≠ 0) {bpmExpr beatsExpr : Expr}
    (hbpm : Worth t.bpm bpmExpr) (hbeats : Worth t.beatsPerStep beatsExpr) :
    ∃ bpm beats, (Binary.ofDouble bpm).toSingle = t.bpm ∧
      (Binary.ofDouble beats).toSingle = t.beatsPerStep ∧ ∀ l₁ l₂ l₃ l₄,
      Gives ([.assign l₁ "samps" (.str t.samplesDir), .command l₂ "use_bpm" [bpmExpr] [],
        .assign l₃ "downbeat_count"
          (.call "range" [.int 0, .int (Int64.ofNat t.stepCount.toNat), .int 1]),
        .command l₄ "set" [.symbol "downbeat_time", beatsExpr] []].foldlM Env.statement .empty)
        (scriptEnv t bpm beats []) := by
  obtain ⟨bpm, hbpm, hbpm'⟩ := hbpm ⟨[("samps", t.samplesDir)], [], [], [], none, []⟩
  obtain ⟨beats, hbeats, hbeats'⟩ := hbeats
    ⟨[("samps", t.samplesDir)], [], [("downbeat_count", t.stepCount)], [], some bpm, []⟩
  refine ⟨bpm, beats, hbpm', hbeats', fun _ _ _ _ ↦ ?_⟩
  exact (gives_samplesDir _ _ _).foldlM_cons ((gives_bpm _ _ hbpm).foldlM_cons
    ((gives_stepCount _ _ hsteps).foldlM_cons ((gives_beats _ _ hbeats).foldlM_cons
      (gives_foldlM_nil _ _))))

/-! ### Functions -/

/-- The functions hold the slot's rule under its label, perhaps written in another way. -/
def Knows (functions : List (String × Rule)) (s : Slot) : Prop :=
  ∃ r, functions.lookup s.label = some r ∧
    ∀ x, s.rule.InBounds x → r.outcome x = s.rule.outcome x

theorem gives_definition (env : Env) {s : Slot} {stmt : Stmt} (hs : s.IsWritable)
    (hvalid : s.rule.validate = .ok ()) (hfit : s.rule.RemaindersFit) (h : IsDefinition s stmt) :
    ∃ r, (∀ x, s.rule.InBounds x → r.outcome x = s.rule.outcome x) ∧
      Gives (env.statement stmt) { env with functions := (s.label, r) :: env.functions } := by
  obtain ⟨line, body, rfl, hbody⟩ := h
  obtain ⟨r, hr, houtcome⟩ := Rule.block_of_ruleBody hs.rule hvalid hfit hbody
  refine ⟨r, houtcome, ?_⟩
  exact (gives_resume hr).bind
    (gives_ite (gives_pure _) ((gives_notice _).bind (gives_pure _)))

/-- Functions with different names are all known in the end, and no other name changes. -/
theorem gives_definitions (env : Env) {slots : List Slot} {stmts : List Stmt}
    (hslots : ∀ s ∈ slots, s.IsWritable ∧ s.rule.validate = .ok () ∧ s.rule.RemaindersFit)
    (hdistinct : (slots.map (·.label)).Nodup) (h : List.Forall₂ IsDefinition slots stmts) :
    ∃ functions, Gives (stmts.foldlM Env.statement env) { env with functions } ∧
      (∀ s ∈ slots, Knows functions s) ∧
      ∀ name ∉ slots.map (·.label), functions.lookup name = env.functions.lookup name := by
  induction h generalizing env with
  | nil => exact ⟨env.functions, gives_pure env, List.forall_mem_nil _, fun _ _ ↦ rfl⟩
  | @cons s stmt slots stmts hfirst hrest ih =>
    rw [List.forall_mem_cons] at hslots
    rw [List.map_cons, List.nodup_cons] at hdistinct
    obtain ⟨hs, hvalid, hfit⟩ := hslots.1
    obtain ⟨r, houtcome, hgives⟩ := gives_definition env hs hvalid hfit hfirst
    obtain ⟨functions, hfunctions, hknown, hothers⟩ :=
      ih { env with functions := (s.label, r) :: env.functions } hslots.2 hdistinct.2
    refine ⟨functions, hgives.foldlM_cons hfunctions, ?_, ?_⟩
    · rw [List.forall_mem_cons]
      refine ⟨⟨r, ?_, houtcome⟩, hknown⟩
      rw [hothers s.label hdistinct.1, List.lookup_cons_self]
    · intro name hname
      rw [List.map_cons, List.mem_cons, not_or] at hname
      rw [hothers name hname.2, List.lookup_cons, beq_false_of_ne hname.1]

/-! ### Sample lines -/

theorem options_eq (env : Env) {p : Preset} {keys : List PresetKey} {options : List (String × Expr)}
    (h : OptionsOf p keys options) : env.options options = .ok (writtenOptions p keys) := by
  induction h with
  | nil => rfl
  | @cons key option keys options hfirst hrest ih =>
    obtain ⟨name, e⟩ := option
    obtain ⟨rfl, hworth⟩ := hfirst
    obtain ⟨x, hx, hvalue⟩ := hworth env
    have hnumber : env.number e = .ok x := hx
    rw [Env.options, List.mapM_cons]
    dsimp only
    rw [hnumber]
    exact bind_eq_ok_iff.mpr ⟨_, rfl, bind_eq_ok_iff.mpr ⟨_, ih, hvalue ▸ rfl⟩⟩

/-- The slot as a sample line gives it: only a folder slot has its number already. -/
def unnumbered (s : Slot) : Slot := { s with id := if s.source.isFolder then s.id else 0 }

/-- The folder that the slots' lines name, if they name one. -/
def namedDir (t : Track) (slots : List Slot) : Option String :=
  if slots.any (·.source.isFolder) then some t.samplesDir else none

/-- What has been gathered, with some slots more. -/
def Gathered.extend (g : Gathered) (dir : Option String) (slots : List Slot) : Gathered :=
  ⟨g.samplesDir <|> dir, g.slots ++ slots⟩

theorem Gathered.extend_nil (g : Gathered) (t : Track) : g.extend (namedDir t []) [] = g := by
  obtain ⟨- | used, slots⟩ := g
  · exact congrArg (Gathered.mk none) (List.append_nil slots)
  · exact congrArg (Gathered.mk (some used)) (List.append_nil slots)

/-- The first folder counts. -/
theorem Gathered.extend_extend (g : Gathered) (slots slots' : List Slot) (read read' : List Slot) :
    (g.extend (namedDir t slots) read).extend (namedDir t slots') read' =
      g.extend (namedDir t (slots ++ slots')) (read ++ read') := by
  simp only [extend, namedDir, List.any_append, List.append_assoc]
  cases g.samplesDir <;> cases slots.any (·.source.isFolder) <;> rfl

theorem gives_add (g : Gathered) (line : Nat) (dir : Option String) (s : Slot) :
    Gives (g.add line dir s) (g.extend dir [s]) := by
  obtain ⟨used?, slots⟩ := g
  rcases dir with - | dir
  · exact gives_pure _
  rcases used? with - | used
  · exact gives_pure _
  · exact gives_ite ((gives_notice _).bind (gives_pure _)) (gives_pure _)

/-- The index of a slot is read as its number. -/
theorem sampleIndex_ofNat (id : SlotId) : sampleIndex (.int (Int64.ofNat id.toNat)) = .ok id := by
  have hid := id.toNat_lt
  have hvalue : (Int64.ofNat id.toNat).toInt = id.toNat := toInt_ofNat_of_lt (by omega)
  rw [sampleIndex, hvalue, if_pos ⟨by omega, by omega⟩, Int.toNat_natCast, UInt16.ofNat_toNat]

/-- A call with the ticked index stands for the rule of its function. -/
theorem gives_guard (env : Env) (sample : String) {name : String} {r : Rule} {n : UInt32}
    (h : env.functions.lookup name = some r) :
    Gives (env.guardRule sample (some ("idx", n)) (some (.call name [.var "idx"])))
      (some name, r) := by
  simp only [Env.guardRule, beq_self_eq_true, if_true, h]
  exact gives_pure _

/-- What a sample line of the script plays. -/
def choiceOf (t : Track) (s : Slot) : SampleChoice :=
  match s.source with
  | .folder => .folder t.samplesDir s.id
  | .bundled name => .bundled name

theorem choice_sampleArgs (t : Track) (bpm beats : Float) (functions : List (String × Rule)) (s : Slot) :
    (scriptEnv t bpm beats functions).choice (sampleArgs s) = .ok (choiceOf t s) := by
  rcases hsource : s.source with - | name
  · rw [sampleArgs, choiceOf, hsource]
    refine bind_eq_ok_iff.mpr ⟨t.samplesDir, rfl, bind_eq_ok_iff.mpr ⟨s.id, ?_, rfl⟩⟩
    exact sampleIndex_ofNat s.id
  · rw [sampleArgs, choiceOf, hsource]
    rfl

theorem dir?_choiceOf (t : Track) (s : Slot) : (choiceOf t s).dir? = namedDir t [s] := by
  rw [choiceOf, namedDir, List.any_cons, List.any_nil, Bool.or_false]
  rcases s.source with - | name <;> rfl

theorem slot_choiceOf (t : Track) (s : Slot) : (choiceOf t s).slot = (unnumbered s).id := by
  rw [choiceOf, unnumbered]
  rcases s.source with - | name <;> rfl

theorem source_choiceOf (t : Track) (s : Slot) : (choiceOf t s).source = s.source := by
  rw [choiceOf]
  rcases s.source with - | name <;> rfl

section

variable (t bpm beats)

/-- **A sample line** gives its slot, without a number if it is bundled. -/
theorem gives_sample {s : Slot} (hknown : Knows functions s) (line : Nat)
    {options : List (String × Expr)} (hoptions : OptionsOf s.preset PresetKey.all options) :
    ∃ s', (unnumbered s).Matches s' ∧
      Gives ((scriptEnv t bpm beats functions).sample (some ("idx", t.stepCount))
        ⟨line, sampleArgs s, options, some (.call s.label [.var "idx"])⟩)
        (namedDir t [s], s') := by
  obtain ⟨r, hr, houtcome⟩ := hknown
  have hchoice := choice_sampleArgs t bpm beats functions s
  have hgives : Gives ((scriptEnv t bpm beats functions).sample (some ("idx", t.stepCount))
      ⟨line, sampleArgs s, options, some (.call s.label [.var "idx"])⟩)
      ((choiceOf t s).dir?, ⟨(choiceOf t s).slot, (choiceOf t s).source, s.label, r, s.preset⟩) := by
    refine (gives_within hchoice).bind ((gives_within (options_eq _ hoptions)).bind ?_)
    rw [unknownOptions_written]
    refine (gives_pure ()).bind ((gives_guard _ _ hr).bind ?_)
    rw [ofOptions_written _ PresetKey.mem_all]
    exact gives_pure _
  rw [dir?_choiceOf] at hgives
  refine ⟨⟨(choiceOf t s).slot, (choiceOf t s).source, s.label, r, s.preset⟩, ?_, hgives⟩
  exact ⟨slot_choiceOf t s, source_choiceOf t s, rfl, rfl, houtcome⟩

/-- The slots of some sample lines, and what they add. -/
theorem gives_samples {slots : List Slot} {samples : List Stmt}
    (hknown : ∀ s ∈ slots, Knows functions s) (h : List.Forall₂ IsSampleLine slots samples)
    (g : Gathered) (beats? : Option Float) :
    ∃ read, List.Forall₂ Slot.Matches (slots.map unnumbered) read ∧
      Gives (samples.foldlM (scriptEnv t bpm beats functions).loopStatement
          ⟨g, some ("idx", t.stepCount), beats?⟩)
        ⟨g.extend (namedDir t slots) read, some ("idx", t.stepCount), beats?⟩ := by
  induction h generalizing g with
  | nil =>
    refine ⟨[], .nil, ?_⟩
    rw [Gathered.extend_nil]
    exact gives_pure _
  | @cons s stmt slots samples hfirst hrest ih =>
    rw [List.forall_mem_cons] at hknown
    obtain ⟨line, line', options, rfl, hoptions⟩ := hfirst
    obtain ⟨s', hmatches, hgives⟩ := gives_sample t bpm beats hknown.1
      line hoptions
    obtain ⟨read, hread, hsamples⟩ := ih hknown.2 (g.extend (namedDir t [s]) [s'])
    refine ⟨s' :: read, .cons hmatches hread, ?_⟩
    rw [Gathered.extend_extend] at hsamples
    have hstep : Gives ((scriptEnv t bpm beats functions).loopStatement
        ⟨g, some ("idx", t.stepCount), beats?⟩
        (.cond line [(.call s.label [.var "idx"],
          [.command line' "sample" (sampleArgs s) options])] []))
        ⟨g.extend (namedDir t [s]) [s'], some ("idx", t.stepCount), beats?⟩ :=
      (Gives.inContext hgives).bind ((gives_add g line _ s').bind (gives_pure _))
    exact hstep.foldlM_cons hsamples

/-! ### Loops -/

/-- The live loop ticks, plays the slots, and sleeps. -/
def LoopOf (slots : List Slot) (l : LiveLoop) : Prop :=
  ∃ first last samples,
    l.body = .assign first "idx" (.method (.var "downbeat_count") "tick" []) :: (samples ++
      [.command last "sleep" [.index (.var "get") (.symbol "downbeat_time")] []]) ∧
    List.Forall₂ IsSampleLine slots samples

theorem loopOf_of_isLoop {name : String} {slots : List Slot} {stmt : Stmt}
    (h : IsLoop name slots stmt) : ∃ l, LiveLoop.of? stmt = some l ∧ LoopOf slots l := by
  obtain ⟨line, first, last, samples, rfl, hsamples⟩ := h
  exact ⟨_, rfl, first, last, samples, rfl, hsamples⟩

/-- A loop over slots plays exactly if there are any. -/
theorem LoopOf.plays_eq {slots : List Slot} {l : LiveLoop} (h : LoopOf slots l) :
    l.plays = !slots.isEmpty := by
  obtain ⟨first, last, samples, hbody, hsamples⟩ := h
  rw [LiveLoop.plays, hbody]
  rcases hsamples with - | ⟨⟨line, line', options, rfl, hoptions⟩, hrest⟩
  · rfl
  · rfl

/-- **A loop** gives its slots, and the clock of the track. -/
theorem gives_liveLoop {slots : List Slot} {l : LiveLoop}
    (hknown : ∀ s ∈ slots, Knows functions s) (h : LoopOf slots l) (g : Gathered) :
    ∃ read, List.Forall₂ Slot.Matches (slots.map unnumbered) read ∧
      Gives ((scriptEnv t bpm beats functions).liveLoop g l)
        (g.extend (namedDir t slots) read, t.stepCount, beats) := by
  obtain ⟨first, last, samples, hbody, hsamples⟩ := h
  obtain ⟨read, hread, hgives⟩ := gives_samples t bpm beats hknown
    hsamples g none
  refine ⟨read, hread, ?_⟩
  rw [Env.liveLoop, hbody]
  have htick : Gives ((scriptEnv t bpm beats functions).loopStatement ⟨g, none, none⟩
      (.assign first "idx" (.method (.var "downbeat_count") "tick" [])))
      ⟨g, some ("idx", t.stepCount), none⟩ := gives_pure _
  have hsleep : Gives ((scriptEnv t bpm beats functions).loopStatement
      ⟨g.extend (namedDir t slots) read, some ("idx", t.stepCount), none⟩
      (.command last "sleep" [.index (.var "get") (.symbol "downbeat_time")] []))
      ⟨g.extend (namedDir t slots) read, some ("idx", t.stepCount), some beats⟩ :=
    (gives_within rfl).bind (gives_pure _)
  exact (htick.foldlM_cons (hgives.foldlM_append (hsleep.foldlM_cons (gives_pure _)))).bind
    (gives_pure _)

/-- The clock, if there is one, is that of the track. -/
def ClockOf (t : Track) (beats : Float) (clock : Option Clock) : Prop :=
  ∀ c ∈ clock, c.steps = t.stepCount ∧ c.beats = beats

/-- Some loops one after the other. -/
theorem gives_liveLoops {slotss : List (List Slot)} {loops : List LiveLoop}
    (hknown : ∀ slots ∈ slotss, ∀ s ∈ slots, Knows functions s)
    (h : List.Forall₂ LoopOf slotss loops) (g : Gathered) (clock : Option Clock)
    (hclock : ClockOf t beats clock) :
    ∃ read clock', List.Forall₂ Slot.Matches (slotss.flatten.map unnumbered) read ∧
      ClockOf t beats clock' ∧ (clock.isSome ∨ slotss ≠ [] → clock'.isSome) ∧
      Gives ((scriptEnv t bpm beats functions).liveLoops g clock loops)
        (g.extend (namedDir t slotss.flatten) read, clock') := by
  induction h generalizing g clock with
  | nil =>
    refine ⟨[], clock, .nil, hclock, fun h ↦ h.resolve_right (absurd rfl), ?_⟩
    rw [List.flatten_nil, Gathered.extend_nil]
    exact gives_pure _
  | @cons slots l slotss loops hfirst hrest ih =>
    rw [List.forall_mem_cons] at hknown
    obtain ⟨read, hread, hgives⟩ := gives_liveLoop t bpm beats hknown.1
      hfirst g
    -- the first loop gives the clock; another loop's own is the same or is only noted
    rcases clock with - | c
    · obtain ⟨read', clock', hread', hclock', hsome, hgives'⟩ :=
        ih hknown.2 (g.extend (namedDir t slots) read) (some ⟨l.name, t.stepCount, beats⟩)
          (by rintro c ⟨⟩; exact ⟨rfl, rfl⟩)
      rw [Gathered.extend_extend] at hgives'
      rw [List.flatten_cons, List.map_append]
      refine ⟨read ++ read', clock', List.rel_append hread hread', hclock',
        fun _ ↦ hsome (.inl rfl), ?_⟩
      exact (Gives.inContext hgives).bind hgives'
    · obtain ⟨read', clock', hread', hclock', hsome, hgives'⟩ :=
        ih hknown.2 (g.extend (namedDir t slots) read) (some c) hclock
      rw [Gathered.extend_extend] at hgives'
      rw [List.flatten_cons, List.map_append]
      refine ⟨read ++ read', clock', List.rel_append hread hread', hclock',
        fun _ ↦ hsome (.inl rfl), ?_⟩
      exact (Gives.inContext hgives).bind (gives_ite ((gives_notice _).bind hgives') hgives')

end

/-! ### Numbering -/

theorem matches_of_isFolder {s s' : Slot} (h : (unnumbered s).Matches s')
    (hs : s.source.isFolder = true) : s.Matches s' := by
  refine ⟨?_, h.source, h.label, h.preset, h.outcome⟩
  exact h.id.trans (if_pos hs)

/-- Bundled slots are numbered as long as the numbers last. -/
theorem numberBundled_bundled {next : Nat} {slots read : List Slot}
    (h : List.Forall₂ Slot.Matches (slots.map unnumbered) read)
    (hbundled : ∀ s ∈ slots, s.source.isFolder = false) (hroom : next + slots.length ≤ 2 ^ 16) :
    ∃ numbered, numberBundled next read = .ok numbered ∧
      List.Forall₂ Slot.Matches (Slot.numberedFrom next slots) numbered := by
  induction slots generalizing next read with
  | nil =>
    cases h
    exact ⟨[], rfl, .nil⟩
  | cons s slots ih =>
    rw [List.forall_mem_cons] at hbundled
    rw [List.length_cons] at hroom
    rcases h with - | ⟨hfirst, hmore⟩
    next s' read =>
    obtain ⟨numbered, hnumbered, hmatches⟩ := ih hmore hbundled.2 (show next + 1 + slots.length ≤ 2 ^ 16 by omega)
    have hs' : s'.source.isFolder = false := by
      rw [hfirst.source]
      exact hbundled.1
    refine ⟨{ s' with id := UInt16.ofNat next } :: numbered, ?_, .cons ?_ hmatches⟩
    · rw [numberBundled, hs', if_neg Bool.false_ne_true, if_pos (by omega)]
      exact bind_eq_ok_iff.mpr ⟨_, hnumbered, rfl⟩
    · exact ⟨rfl, hfirst.source, hfirst.label, hfirst.preset, hfirst.outcome⟩

/-- Folder slots keep their numbers. -/
theorem numberBundled_sorted {next : Nat} {folders bundled read : List Slot}
    (h : List.Forall₂ Slot.Matches ((folders ++ bundled).map unnumbered) read)
    (hfolders : ∀ s ∈ folders, s.source.isFolder = true)
    (hbundled : ∀ s ∈ bundled, s.source.isFolder = false) (hroom : next + bundled.length ≤ 2 ^ 16) :
    ∃ numbered, numberBundled next read = .ok numbered ∧
      List.Forall₂ Slot.Matches (folders ++ Slot.numberedFrom next bundled) numbered := by
  induction folders generalizing read with
  | nil => exact numberBundled_bundled h hbundled hroom
  | cons s folders ih =>
    rw [List.forall_mem_cons] at hfolders
    rcases h with - | ⟨hfirst, hmore⟩
    next s' read =>
    obtain ⟨numbered, hnumbered, hmatches⟩ := ih hmore hfolders.2
    have hs' : s'.source.isFolder = true := by
      rw [hfirst.source]
      exact hfolders.1
    refine ⟨s' :: numbered, ?_, .cons (matches_of_isFolder hfirst hfolders.1) hmatches⟩
    rw [numberBundled, if_pos hs']
    exact bind_eq_ok_iff.mpr ⟨_, hnumbered, rfl⟩

/-- The numbers of the folder slots are known before the bundled ones get theirs. -/
theorem firstBundled_eq {slots read : List Slot}
    (h : List.Forall₂ Slot.Matches (slots.map unnumbered) read) :
    firstBundled read = firstBundled slots := by
  have hids : (read.filter (·.source.isFolder)).map (·.id.toNat + 1) =
      (slots.filter (·.source.isFolder)).map (·.id.toNat + 1) := by
    induction slots generalizing read with
    | nil =>
      cases h
      rfl
    | cons s slots ih =>
      rcases h with - | ⟨hfirst, hmore⟩
      next s' read =>
      have hsource : s'.source.isFolder = s.source.isFolder := by
        rw [hfirst.source]
        rfl
      rcases hs : s.source.isFolder with - | -
      · rw [List.filter_cons, List.filter_cons, hsource, hs, if_neg Bool.false_ne_true,
          if_neg Bool.false_ne_true, ih hmore]
      · rw [List.filter_cons, List.filter_cons, hsource, hs, if_pos rfl, if_pos rfl, List.map_cons,
          List.map_cons, ih hmore, (matches_of_isFolder hfirst hs).id]
  rw [firstBundled, firstBundled, hids]

theorem firstBundled_sorted (slots : List Slot) :
    firstBundled (slots.filter (·.source.isFolder) ++ slots.filter (!·.source.isFolder)) =
      firstBundled slots := by
  have hfolder : (slots.filter (·.source.isFolder) ++ slots.filter (!·.source.isFolder)).filter
      (·.source.isFolder) = slots.filter (·.source.isFolder) := by
    simp [List.filter_append, List.filter_filter]
  rw [firstBundled, hfolder]
  rfl

/-! ### The whole track -/

theorem forall₂_plays {slotss : List (List Slot)} {loops : List LiveLoop}
    (h : List.Forall₂ LoopOf slotss loops) :
    List.Forall₂ LoopOf (slotss.filter (!·.isEmpty)) (loops.filter (·.plays)) := by
  induction h with
  | nil => exact .nil
  | @cons slots l slotss loops hfirst hrest ih =>
    rw [List.filter_cons, List.filter_cons, hfirst.plays_eq]
    split
    · exact .cons hfirst ih
    · exact ih

theorem filterMap_definitions {slots : List Slot} {stmts : List Stmt}
    (h : List.Forall₂ IsDefinition slots stmts) : stmts.filterMap LiveLoop.of? = [] := by
  induction h with
  | nil => rfl
  | @cons s stmt slots stmts hfirst hrest ih =>
    obtain ⟨line, body, rfl, -⟩ := hfirst
    exact ih

/-- The top level goes past a loop. -/
theorem gives_loop (env : Env) {name : String} {slots : List Slot} {stmt : Stmt}
    (h : IsLoop name slots stmt) : Gives (env.statement stmt) env := by
  obtain ⟨line, first, last, samples, rfl, -⟩ := h
  exact gives_pure env

/-- The top level of a script sets what the track says. -/
theorem gives_scriptEnv {t : Track} (h : t.IsWritable)
    (hfit : ∀ s ∈ t.slots, s.rule.RemaindersFit) {stmts : List Stmt} (hscript : IsScript t stmts) :
    ∃ bpm beats functions, (Binary.ofDouble bpm).toSingle = t.bpm ∧
      (Binary.ofDouble beats).toSingle = t.beatsPerStep ∧ (∀ s ∈ t.slots, Knows functions s) ∧
      Gives (stmts.foldlM Env.statement .empty) (scriptEnv t bpm beats functions) := by
  obtain ⟨-, hsteps, -, hslots⟩ := Track.validate_eq_ok h.valid
  obtain ⟨_, _, _, _, _, _, definitions, _, _, rfl, hbpm, hbeats, hdefinitions, hfolder, hbundled⟩ :=
    hscript
  obtain ⟨bpm, beats, hbpm', hbeats', hsettings⟩ := gives_settings hsteps hbpm hbeats
  obtain ⟨functions, hfunctions, hknown, -⟩ := gives_definitions (scriptEnv t bpm beats [])
    (fun s hs ↦ ⟨h.slots s hs, (hslots s hs).1, hfit s hs⟩) h.distinct hdefinitions
  have hloops := hfunctions.foldlM_append
    ((gives_loop _ hfolder).foldlM_cons ((gives_loop _ hbundled).foldlM_cons (gives_foldlM_nil _ _)))
  refine ⟨bpm, beats, functions, hbpm', hbeats', hknown, ?_⟩
  exact (hsettings _ _ _ _).foldlM_append hloops

/-- The loops of a script: one over the folder slots, one over the bundled ones. -/
theorem loops_of_isScript {t : Track} {stmts : List Stmt} (h : IsScript t stmts) :
    ∃ loops, stmts.filterMap LiveLoop.of? = loops ∧ List.Forall₂ LoopOf
      [t.slots.filter (·.source.isFolder), t.slots.filter (!·.source.isFolder)] loops := by
  obtain ⟨_, _, _, _, _, _, definitions, _, _, rfl, -, -, hdefinitions, hfolder, hbundled⟩ := h
  obtain ⟨l, hl, hloop⟩ := loopOf_of_isLoop hfolder
  obtain ⟨l', hl', hloop'⟩ := loopOf_of_isLoop hbundled
  refine ⟨[l, l'], ?_, .cons hloop (.cons hloop' .nil)⟩
  show (definitions ++ _).filterMap LiveLoop.of? = _
  rw [List.filterMap_append, filterMap_definitions hdefinitions, List.filterMap_cons_some hl,
    List.filterMap_cons_some hl']
  rfl

/-- The slots of a track, the folder slots first, are those that the loops play. -/
theorem sorted_ne_nil {slots : List Slot} (h : slots ≠ []) :
    slots.filter (·.source.isFolder) ++ slots.filter (!·.source.isFolder) ≠ [] := by
  intro heq
  obtain ⟨s, hs⟩ := List.exists_mem_of_ne_nil slots h
  rw [List.append_eq_nil_iff, List.filter_eq_nil_iff, List.filter_eq_nil_iff] at heq
  have hbundled := heq.2 s hs
  rw [Bool.not_eq_true, Bool.not_eq_false'] at hbundled
  exact heq.1 s hs hbundled

theorem samplesDir_sorted (t : Track) :
    (namedDir t (t.slots.filter (·.source.isFolder) ++
      t.slots.filter (!·.source.isFolder))).getD "" =
      if t.slots.any (·.source.isFolder) then t.samplesDir else "" := by
  have hany : (t.slots.filter (·.source.isFolder) ++
      t.slots.filter (!·.source.isFolder)).any (·.source.isFolder) =
      t.slots.any (·.source.isFolder) := by
    simp [List.any_append, List.any_filter]
  rw [namedDir, hany]
  cases t.slots.any (·.source.isFolder) <;> rfl

/-- **The statements of a track's script** give the track. -/
theorem gives_trackOf {t : Track} (h : t.IsWritable)
    (hfit : ∀ s ∈ t.slots, s.rule.RemaindersFit) {stmts : List Stmt} (hscript : IsScript t stmts) :
    ∃ t', t.Matches t' ∧ Gives (trackOf stmts t.name) t' := by
  obtain ⟨bpm, beats, functions, hbpm, hbeats, hknown, henv⟩ := gives_scriptEnv h hfit hscript
  obtain ⟨loops, hloops, hplayed⟩ := loops_of_isScript hscript
  have hnone : ClockOf t beats none := by rintro _ ⟨⟩
  have hknown' : ∀ slots ∈ [t.slots.filter (·.source.isFolder),
      t.slots.filter (!·.source.isFolder)].filter (!·.isEmpty), ∀ s ∈ slots, Knows functions s := by
    intro slots hslots s hs
    have hmem := (List.mem_filter.mp hslots).1
    rw [List.mem_cons, List.mem_singleton] at hmem
    rcases hmem with rfl | rfl
    · exact hknown s (List.mem_of_mem_filter hs)
    · exact hknown s (List.mem_of_mem_filter hs)
  obtain ⟨read, clock, hread, hclock, hsome, hgives⟩ :=
    gives_liveLoops t bpm beats hknown' (forall₂_plays hplayed) ⟨none, []⟩ none hnone
  have hflatten : [t.slots.filter (·.source.isFolder), t.slots.filter (!·.source.isFolder)].flatten =
      t.slots.filter (·.source.isFolder) ++ t.slots.filter (!·.source.isFolder) := by
    rw [List.flatten_cons, List.flatten_singleton]
  have hplays : [t.slots.filter (·.source.isFolder),
      t.slots.filter (!·.source.isFolder)].filter (!·.isEmpty) ≠ [] := by
    intro heq
    have hnil := congrArg List.flatten heq
    rw [List.flatten_filter_not_isEmpty, hflatten] at hnil
    exact sorted_ne_nil h.nonempty hnil
  obtain ⟨c, rfl⟩ := Option.isSome_iff_exists.mp (hsome (.inr hplays))
  obtain ⟨hsteps, hbeats'⟩ := hclock c rfl
  rw [List.flatten_filter_not_isEmpty, hflatten] at hread hgives
  -- the loops give the folder slots first, so the bundled ones are numbered at the end
  obtain ⟨numbered, hnumbered, hslots⟩ := numberBundled_sorted hread
    (fun s hs ↦ (List.mem_filter.mp hs).2)
    (fun s hs ↦ Bool.not_eq_true' _ ▸ (List.mem_filter.mp hs).2) h.numbered
  rw [← firstBundled_sorted, ← firstBundled_eq hread] at hnumbered
  have hname : t.name.isEmpty = false := by
    rw [Bool.eq_false_iff, ne_eq, String.isEmpty_iff]
    exact h.named
  refine ⟨{
    name := t.name
    samplesDir := (namedDir t (t.slots.filter (·.source.isFolder) ++
      t.slots.filter (!·.source.isFolder))).getD ""
    bpm := (Binary.ofDouble bpm).toSingle
    stepCount := c.steps
    beatsPerStep := (Binary.ofDouble c.beats).toSingle
    slots := numbered }, ?_, ?_⟩
  · exact ⟨rfl, samplesDir_sorted t, hbpm, hsteps, hbeats' ▸ hbeats, hslots⟩
  · refine henv.bind ?_
    rw [hloops]
    refine (gives_forM fun _ _ ↦ gives_notice _).bind (hgives.bind ?_)
    refine (gives_within hnumbered).bind ?_
    rw [hname]
    exact gives_pure _

/-- **A track that is written and read** is the same track, with its slots sorted and numbered. -/
theorem readTrack_render {t : Track} (h : t.IsWritable)
    (hfit : ∀ s ∈ t.slots, s.rule.RemaindersFit) :
    write t = .ok (render t) ∧ ∃ t', (readTrack (render t) t.name).1 = .ok t' ∧ t.Matches t' := by
  refine ⟨write_eq_render fun s hs ↦ (h.slots s hs).rule, ?_⟩
  obtain ⟨⟨-, hpositive⟩, -⟩ := Track.validate_eq_ok h.valid
  obtain ⟨stmts, hstmts, hscript⟩ := parse_render h (NumberLayout.head?_single_of_pos hpositive)
  obtain ⟨t', hmatches, hgives⟩ := gives_trackOf h hfit hscript
  refine ⟨t', ?_, hmatches⟩
  have hparse : Gives (within id (parse (render t))) stmts := gives_within hstmts
  obtain ⟨more, hmore⟩ := (hparse.bind (f := fun stmts ↦ trackOf stmts t.name) hgives) []
  exact congrArg Prod.fst hmore

/-! ### Two tracks -/

/-- A float whose text is that of a whole number. -/
theorem readsBack_of_digits {v : Float32} (n : Nat) {w : Int64} (hw : w.toInt = n)
    (htext : (NumberLayout.plain.single v).toList = Nat.toDigits 10 n)
    (hv : (Binary.ofDouble (Word.toFloat w)).toSingle = v) : ReadsBack v :=
  ⟨_, .int w, Word.toFloat w, isNumber_toDigits hw, rfl, .inl ⟨htext, hv⟩⟩

/-- A float whose text is that of a negated whole number. -/
theorem readsBack_of_neg_digits {v : Float32} (n : Nat) {w : Int64} (hw : w.toInt = n)
    (htext : (NumberLayout.plain.single v).toList = '-' :: Nat.toDigits 10 n)
    (hv : (Binary.ofDouble (-Word.toFloat w)).toSingle = v) : ReadsBack v :=
  ⟨_, .int w, Word.toFloat w, isNumber_toDigits hw, rfl, .inr ⟨htext, hv⟩⟩

theorem readsBack_one : ReadsBack 1 :=
  readsBack_of_digits 1 (w := 1) rfl (by decide +kernel) (by decide +kernel)

theorem readsBack_sixty : ReadsBack 60 :=
  readsBack_of_digits 60 (w := 60) rfl (by decide +kernel) (by decide +kernel)

theorem readsBack_standard (key : PresetKey) : ReadsBack (Preset.standard.get key) := by
  have hzero : ReadsBack 0 :=
    readsBack_of_digits 0 (w := 0) rfl (by decide +kernel) (by decide +kernel)
  have hneg : ReadsBack (-1) :=
    readsBack_of_neg_digits 1 (w := 1) rfl (by decide +kernel) (by decide +kernel)
  cases key with
  | start | attack | decay | release => exact hzero
  | attackLevel | decayLevel | sustainLevel => exact readsBack_one
  | sustain => exact hneg

theorem labels_of_matches {slots read : List Slot} (h : List.Forall₂ Slot.Matches slots read) :
    read.map (fun s ↦ (s.label, s.id)) = slots.map fun s ↦ (s.label, s.id) := by
  induction h with
  | nil => rfl
  | cons hfirst hrest ih => rw [List.map_cons, List.map_cons, hfirst.label, hfirst.id, ih]

/-- A bundled slot before a folder slot. -/
def reordered : Track where
  name := "loop"
  samplesDir := "kit's"
  bpm := 60
  stepCount := 16
  beatsPerStep := 1
  slots := [⟨0, .bundled "bd_haus", "boom", .rebase 3 (.test (.any [.congruent 1 4,
      .compare (.order .lt) (.binary .add .step (.const (.int 1))) (.const (.int (-2)))])
      (.answer (.sentinel 9)) (.answer .nil)), .standard⟩,
    ⟨5, .folder, "hat", .test (.not (.all [.equals 2, .atMost 7])) (.answer .true) (.answer .false),
      .standard⟩]

theorem isWritable_reordered : reordered.IsWritable where
  valid := by rfl
  named := by decide
  nonempty := List.cons_ne_nil _ _
  slots := by
    rw [reordered, List.forall_mem_cons, List.forall_mem_singleton]
    refine ⟨⟨by decide, by decide, by decide, ?_, ?_, readsBack_standard⟩,
      ⟨by decide, by decide, by decide, ?_, ?_, readsBack_standard⟩⟩
    · rintro _ ⟨⟩
      rfl
    · simp [Rule.IsExact, Condition.IsExact, Condition.EachExact, StepExpr.IsExact]
      decide
    · rintro _ ⟨⟩
    · simp [Rule.IsExact, Condition.IsExact, Condition.EachExact]
      decide
  distinct := by decide
  numbered := by decide
  bpm := readsBack_sixty
  beatsPerStep := readsBack_one

/-- The folder slot comes back first, and the bundled one is numbered after it. -/
theorem readTrack_render_reordered :
    reordered.IsWritable ∧ (∀ s ∈ reordered.slots, s.rule.RemaindersFit) ∧
      write reordered = .ok (render reordered) ∧
      ∃ t', (readTrack (render reordered) reordered.name).1 = .ok t' ∧ reordered.Matches t' ∧
        t'.slots.map (fun s ↦ (s.label, s.id)) = [("hat", 5), ("boom", 6)] := by
  have hfit : ∀ s ∈ reordered.slots, s.rule.RemaindersFit := by
    rw [reordered, List.forall_mem_cons, List.forall_mem_singleton]
    simp [Rule.RemaindersFit, Condition.ForSides, Condition.EachForSides, StepExpr.RemaindersFit]
  obtain ⟨hwrite, t', ht', hmatches⟩ := readTrack_render isWritable_reordered hfit
  exact ⟨isWritable_reordered, hfit, hwrite, t', ht', hmatches, labels_of_matches hmatches.slots⟩

/-- A remainder of constants whose multiple of the divisor no word holds. -/
def unchecked : Track where
  name := "loop"
  samplesDir := "kit"
  bpm := 60
  stepCount := 4
  beatsPerStep := 1
  slots := [⟨0, .folder, "kick", .test (.compare .eq
      (.binary .rem (.const (.int (-9223372036854775807))) (.const (.int 3))) .step)
      (.answer .true) (.answer .false), .standard⟩]

theorem isWritable_unchecked : unchecked.IsWritable where
  valid := by rfl
  named := by decide
  nonempty := List.cons_ne_nil _ _
  slots := by
    rw [unchecked, List.forall_mem_singleton]
    refine ⟨by decide, by decide, by decide, ?_, ?_, readsBack_standard⟩
    · rintro _ ⟨⟩
    · simp [Rule.IsExact, Condition.IsExact, StepExpr.IsExact]
      decide
  distinct := by decide
  numbered := by decide
  bpm := readsBack_sixty
  beatsPerStep := readsBack_one

/-- The remainder multiplies past a word. -/
theorem block_unchecked (line l₁ l₂ : Nat) :
    Body.block (some "x") [.cond line
      [((Condition.compare .eq (.binary .rem (.const (.int (-9223372036854775807)))
        (.const (.int 3))) .step).tree, [.ret l₁ (some (Outcome.tree .true))])]
      [.ret l₂ (some (Outcome.tree .false))]] = .error (.aborted .multiplication) := by
  simp only [Body.block, Body.branches, List.append_nil]
  rfl

theorem fails_unchecked {stmt : Stmt} {s : Slot} (hs : s ∈ unchecked.slots)
    (h : IsDefinition s stmt) (env : Env) :
    Fails (env.statement stmt) (.aborted .multiplication) := by
  rw [unchecked, List.mem_singleton] at hs
  subst hs
  obtain ⟨line, body, rfl, line', _, _, rfl, ⟨_, rfl⟩, ⟨_, rfl⟩⟩ := h
  exact (fails_resume (block_unchecked line' _ _)).bind _

/-- **A track that is written and not read**: reading its script aborts the program. -/
theorem not_readTrack_render_unchecked :
    unchecked.IsWritable ∧ write unchecked = .ok (render unchecked) ∧
      (readTrack (render unchecked) unchecked.name).1 = .error (.aborted .multiplication) := by
  refine ⟨isWritable_unchecked,
    write_eq_render fun s hs ↦ (isWritable_unchecked.slots s hs).rule, ?_⟩
  obtain ⟨⟨-, hpositive⟩, hsteps, -⟩ := Track.validate_eq_ok isWritable_unchecked.valid
  obtain ⟨stmts, hstmts, hscript⟩ :=
    parse_render isWritable_unchecked (NumberLayout.head?_single_of_pos hpositive)
  obtain ⟨_, _, _, _, _, _, _, _, _, rfl, hbpm, hbeats, hdefinitions, -, -⟩ := hscript
  obtain ⟨bpm, beats, -, -, hsettings⟩ := gives_settings hsteps hbpm hbeats
  rcases hdefinitions with - | ⟨hfirst, hrest⟩
  have hfails : Fails ((scriptEnv unchecked bpm beats []).statement _) (.aborted .multiplication) :=
    fails_unchecked (List.mem_singleton_self _) hfirst _
  have hparse : Gives (within id (parse (render unchecked))) _ := gives_within hstmts
  refine (hparse.bind_fails (f := fun stmts ↦ trackOf stmts unchecked.name) ?_).fst_run
  refine Fails.bind ((hsettings _ _ _ _).foldlM_append_fails ?_) _
  exact hfails.bind _

end Script

end StepSequencer
