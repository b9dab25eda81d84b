import StepSequencer.Proofs.Script.SampleLines

/-!
# The numbers of slots

The bundled slots of a script are numbered after all its slots are known: one after the other, from
the first number beyond those of the folder slots (`firstFree`). So a bundled slot shares its number
with no other slot (`pairwise_isApart`), and a script has too many samples exactly if the numbers
run out.

`gather` is a script up to its numbering. It is never refused for want of a number, as every refusal on
the way is put into a context, so `trackOf_numbered` tells that refusal apart from all other ends.
-/

namespace StepSequencer.Script

open Attempts

variable {stmts : List Stmt}

/-- The first number that no folder slot has: the one after the highest index. -/
def firstFree (lines : List SampleLine) : Nat :=
  match (lines.filterMap SampleLine.index?).max? with
  | some n => n + 1
  | none => 0

/-- How many lines play a bundled sample. -/
def bundledCount (lines : List SampleLine) : Nat := lines.countP (·.index?.isNone)

/-! ### Numbering -/

/-- The slot is the same, but for the number of a bundled one. -/
def SameButNumber (s s' : Slot) : Prop :=
  s'.source = s.source ∧ s'.rule = s.rule ∧ (s.source.isFolder = true → s' = s)

/-- The numbers of the bundled slots. -/
def bundledIds (slots : List Slot) : List Nat :=
  (slots.filter (!·.source.isFolder)).map (·.id.toNat)

/-- Numbering succeeds if there is a number for each bundled slot. -/
theorem numberBundled_of_le {next : Nat} {slots : List Slot}
    (h : next + slots.countP (!·.source.isFolder) ≤ 2 ^ 16) :
    ∃ numbered, numberBundled next slots = .ok numbered ∧
      List.Forall₂ SameButNumber slots numbered ∧
      bundledIds numbered = List.range' next (slots.countP (!·.source.isFolder)) := by
  induction slots generalizing next with
  | nil => exact ⟨[], rfl, .nil, rfl⟩
  | cons s slots ih =>
    cases hs : s.source.isFolder with
    | true =>
      rw [List.countP_cons_of_neg (by simp [hs])] at h ⊢
      obtain ⟨numbered, hnumbered, hsame, hids⟩ := ih h
      refine ⟨s :: numbered, ?_, .cons ⟨rfl, rfl, fun _ ↦ rfl⟩ hsame, ?_⟩
      · rw [numberBundled, if_pos hs, hnumbered]
        rfl
      · rwa [bundledIds, List.filter_cons_of_neg (by simp [hs])]
    | false =>
      rw [List.countP_cons_of_pos (by simp [hs])] at h ⊢
      -- a bundled slot takes a number, and there is one for each of the rest
      have hroom : next + 1 + slots.countP (!·.source.isFolder) ≤ 2 ^ 16 := by omega
      obtain ⟨numbered, hnumbered, hsame, hids⟩ := ih hroom
      refine ⟨{ s with id := UInt16.ofNat next } :: numbered, ?_,
        .cons ⟨rfl, rfl, fun hfolder ↦ absurd (hs.symm.trans hfolder) nofun⟩ hsame, ?_⟩
      · rw [numberBundled, if_neg (by simp [hs]), if_pos (by omega), hnumbered]
        rfl
      · rw [bundledIds, List.filter_cons_of_pos (by simp [hs]), List.map_cons, List.range'_succ]
        refine congr (congrArg List.cons ?_) hids
        rw [UInt16.toNat_ofNat', Nat.mod_eq_of_lt (by omega)]

/-- Numbering fails if there is no number left for a bundled slot. -/
theorem numberBundled_of_gt {next : Nat} {slots : List Slot} (hnext : next ≤ 2 ^ 16)
    (h : 2 ^ 16 < next + slots.countP (!·.source.isFolder)) :
    ∃ label, numberBundled next slots = .error (.tooManySamples label) := by
  induction slots generalizing next with
  | nil => exact absurd h (by simp; omega)
  | cons s slots ih =>
    cases hs : s.source.isFolder with
    | true =>
      rw [List.countP_cons_of_neg (by simp [hs])] at h
      obtain ⟨label, hlabel⟩ := ih hnext h
      exact ⟨label, by rw [numberBundled, if_pos hs, hlabel]; rfl⟩
    | false =>
      rw [List.countP_cons_of_pos (by simp [hs])] at h
      rw [numberBundled, if_neg (by simp [hs])]
      by_cases hroom : next < 2 ^ 16
      · have hmore : 2 ^ 16 < next + 1 + slots.countP (!·.source.isFolder) := by omega
        obtain ⟨label, hlabel⟩ := ih hroom hmore
        exact ⟨label, by rw [if_pos hroom, hlabel]; rfl⟩
      · exact ⟨s.label, if_neg hroom⟩

/-! ### Numbers and lines -/

/-- The number after the highest is the highest of the numbers after each. -/
theorem foldl_max_succ (l : List Nat) :
    (l.map (· + 1)).foldl max 0 =
      match l.max? with
      | some n => n + 1
      | none => 0 := by
  have hshift (l : List Nat) (a : Nat) : (l.map (· + 1)).foldl max (a + 1) = l.foldl max a + 1 := by
    induction l generalizing a with
    | nil => rfl
    | cons b l ih => rw [List.map_cons, List.foldl_cons, List.foldl_cons, ← ih, Nat.succ_max_succ]
  cases l with
  | nil => rfl
  | cons a l => rw [List.map_cons, List.foldl_cons, Nat.zero_max, hshift, List.max?_cons']

section Made

variable {lines : List SampleLine} {slots : List Slot}
  (h : List.Forall₂ (SampleLine.Makes stmts) lines slots)

include h

/-- The folder slots have the written indices, in order. -/
theorem folderIds_of_makes :
    (slots.filter (·.source.isFolder)).map (·.id.toNat) = lines.filterMap SampleLine.index? := by
  induction h with
  | nil => rfl
  | @cons line s lines slots hfirst hrest ih =>
    cases hindex : line.index? with
    | some n =>
      obtain ⟨hsource, hid⟩ := hfirst.index n hindex
      rw [List.filter_cons_of_pos (by simp [hsource, SampleSource.isFolder]), List.map_cons, ih, hid,
        List.filterMap_cons, hindex]
    | none =>
      obtain ⟨name, hsource, -⟩ := hfirst.bundled hindex
      rw [List.filter_cons_of_neg (by simp [hsource, SampleSource.isFolder]), ih,
        List.filterMap_cons, hindex]

/-- The first number for a bundled slot is read off the lines. -/
theorem firstBundled_of_makes : firstBundled slots = firstFree lines := by
  have hids := congrArg (List.map (· + 1)) (folderIds_of_makes h)
  rw [List.map_map] at hids
  rw [firstBundled, firstFree, ← foldl_max_succ, ← hids]
  rfl

/-- There is a bundled slot for each line that plays a bundled sample. -/
theorem countP_of_makes : slots.countP (!·.source.isFolder) = bundledCount lines := by
  rw [bundledCount]
  induction h with
  | nil => rfl
  | @cons line s lines slots hfirst hrest ih =>
    cases hindex : line.index? with
    | some n =>
      obtain ⟨hsource, -⟩ := hfirst.index n hindex
      rw [List.countP_cons_of_neg (by simp [hsource, SampleSource.isFolder]), ih,
        List.countP_cons_of_neg (by simp [hindex])]
    | none =>
      obtain ⟨name, hsource, -⟩ := hfirst.bundled hindex
      rw [List.countP_cons_of_pos (by simp [hsource, SampleSource.isFolder]), ih,
        List.countP_cons_of_pos (by simp [hindex])]

/-- The numbers of folder slots come before the first free one. -/
theorem id_lt_firstFree : ∀ s ∈ slots, s.source.isFolder = true → s.id.toNat < firstFree lines := by
  intro s hs hfolder
  have hmem : s.id.toNat ∈ lines.filterMap SampleLine.index? := by
    rw [← folderIds_of_makes h]
    exact List.mem_map_of_mem (List.mem_filter.mpr ⟨hs, hfolder⟩)
  rw [firstFree]
  cases hmax : (lines.filterMap SampleLine.index?).max? with
  | none =>
    rw [List.max?_eq_none_iff.mp hmax] at hmem
    cases hmem
  | some n => exact Nat.lt_succ_of_le ((List.max?_eq_some_iff.mp hmax).2 _ hmem)

/-- There is at most one number too many for the first bundled slot. -/
theorem firstFree_le : firstFree lines ≤ 2 ^ 16 := by
  rw [firstFree]
  cases hmax : (lines.filterMap SampleLine.index?).max? with
  | none => exact Nat.zero_le _
  | some n =>
    have hmem := (List.max?_eq_some_iff.mp hmax).1
    rw [← folderIds_of_makes h] at hmem
    obtain ⟨s, -, hid⟩ := List.mem_map.mp hmem
    have hlt := s.id.toNat_lt
    dsimp only
    omega

end Made

/-- A bundled slot shares its number with no other slot. -/
def IsApart (s s' : Slot) : Prop :=
  s.source.isFolder = true ∧ s'.source.isFolder = true ∨ s.id ≠ s'.id

/-- Numbers given one after the other, from beyond those of the folder slots on, are all different. -/
theorem pairwise_isApart {slots : List Slot} {bound next count : Nat} (hbound : bound ≤ next)
    (hfolders : ∀ s ∈ slots, s.source.isFolder = true → s.id.toNat < bound)
    (hids : bundledIds slots = List.range' next count) : slots.Pairwise IsApart := by
  induction slots generalizing next count with
  | nil => exact .nil
  | cons s slots ih =>
    obtain ⟨hfirst, hrest⟩ := List.forall_mem_cons.mp hfolders
    -- every bundled slot behind has one of the numbers that are left
    have hlater {from_ n : Nat} (hids : bundledIds slots = List.range' from_ n) {s' : Slot}
        (hs' : s' ∈ slots) (hbundled : s'.source.isFolder = false) : from_ ≤ s'.id.toNat := by
      have hmem : s'.id.toNat ∈ bundledIds slots :=
        List.mem_map_of_mem (List.mem_filter.mpr ⟨hs', by rw [hbundled]; rfl⟩)
      rw [hids, List.mem_range'_1] at hmem
      exact hmem.1
    cases hs : s.source.isFolder with
    | true =>
      rw [bundledIds, List.filter_cons_of_neg (by simp [hs]), ← bundledIds] at hids
      refine .cons (fun s' hs' ↦ ?_) (ih hbound hrest hids)
      cases hsource : s'.source.isFolder with
      | true => exact .inl ⟨hs, hsource⟩
      | false =>
        refine .inr fun heq ↦ ?_
        have hlow := hlater hids hs' hsource
        have hlt := hfirst hs
        rw [heq] at hlt
        omega
    | false =>
      rw [bundledIds, List.filter_cons_of_pos (by simp [hs]), List.map_cons, ← bundledIds] at hids
      cases count with
      | zero => cases hids
      | succ count =>
        rw [List.range'_succ] at hids
        obtain ⟨hid, hids⟩ := List.cons.inj hids
        refine .cons (fun s' hs' ↦ .inr fun heq ↦ ?_) (ih (by omega) hrest hids)
        rw [heq] at hid
        cases hsource : s'.source.isFolder with
        | true =>
          have hlt := hrest s' hs' hsource
          omega
        | false =>
          have hlow := hlater hids hs' hsource
          omega

/-! ### The whole track -/

/-- A script up to the numbering of its slots: its names, what its loops gave, and its clock. -/
def gather (stmts : List Stmt) : Reading (Env × Gathered × Clock) := do
  let env ← stmts.foldlM Env.statement .empty
  (stmts.filterMap LiveLoop.of? |>.filter (!·.plays)).forM fun l ↦ notice (.silentLoop l.name)
  let (gathered, clock) ← env.liveLoops ⟨none, []⟩ none (playingLoops stmts)
  match clock with
  | none => refuse .nothingPlays
  | some clock => pure (env, gathered, clock)

/-- The track of a script whose slots are numbered. -/
def trackOfGathered (name : String) (env : Env) (gathered : Gathered) (clock : Clock)
    (slots : List Slot) : Track where
  name := if name.isEmpty then clock.name else name
  samplesDir := gathered.samplesDir.getD ""
  bpm := (Binary.ofDouble (env.bpm.getD defaultBpm)).toSingle
  stepCount := clock.steps
  beatsPerStep := (Binary.ofDouble clock.beats).toSingle
  slots := slots

/-- Numbering is the last part of reading a script that may fail. -/
theorem trackOf_eq (stmts : List Stmt) (name : String) :
    trackOf stmts name = gather stmts >>= fun found ↦
      within id (numberBundled (firstBundled found.2.1.slots) found.2.1.slots) >>= fun slots ↦
        pure (trackOfGathered name found.1 found.2.1 found.2.2 slots) := by
  simp only [trackOf, gather, bind_assoc]
  refine bind_congr fun env ↦ bind_congr fun _ ↦ bind_congr fun gathered ↦ ?_
  rcases gathered with ⟨gathered, none | clock⟩
  · rfl
  · rfl

theorem linesOf_of_not_plays {l : LiveLoop} (h : l.plays = false) : linesOf l.body = [] := by
  refine List.filterMap_eq_nil_iff.mpr fun stmt hstmt ↦ ?_
  have hline := List.any_eq_false.mp h stmt hstmt
  rwa [Bool.not_eq_true, Option.isSome_eq_false_iff, Option.isNone_iff_eq_none] at hline

/-- The loops that do not play have no lines. -/
theorem flatMap_playingLoops (stmts : List Stmt) :
    (playingLoops stmts).flatMap (fun l ↦ linesOf l.body) = sampleLines stmts := by
  rw [playingLoops, sampleLines]
  induction stmts.filterMap LiveLoop.of? with
  | nil => rfl
  | cons l loops ih =>
    rw [List.filter_cons, List.flatMap_cons]
    split
    · rw [List.flatMap_cons, ih]
    · next hplays =>
      rw [linesOf_of_not_plays (Bool.not_eq_true _ ▸ hplays), List.nil_append, ih]

/-- What a script gives before its slots are numbered. -/
structure Gathers (stmts : List Stmt) (env : Env) (g : Gathered) (clock : Clock) : Prop where
  names : MayGive (stmts.foldlM Env.statement .empty) env
  slots : List.Forall₂ (SampleLine.Makes stmts) (sampleLines stmts) g.slots
  samplesDir : g.samplesDir = (sampleLines stmts).findSome? (SampleLine.dir? env)
  clock : ∃ l, (playingLoops stmts).head? = some l ∧ clock.IsOf env l

theorem gathers_of_mayGive {env : Env} {g : Gathered} {clock : Clock}
    (h : MayGive (gather stmts) (env, g, clock)) : Gathers stmts env g clock := by
  obtain ⟨env', henv, h⟩ := h.of_bind
  obtain ⟨_, -, h⟩ := h.of_bind
  obtain ⟨⟨g', clock'⟩, hloops, h⟩ := h.of_bind
  obtain ⟨made, hmade, rfl, hclock⟩ := after_of_liveLoops (names_of_statements henv) hloops
  rw [flatMap_playingLoops] at hmade
  cases clock' with
  | none => exact absurd h not_mayGive_refuse
  | some c =>
    obtain ⟨rfl, hrest⟩ := Prod.mk.inj h.of_pure
    obtain ⟨rfl, rfl⟩ := Prod.mk.inj hrest
    refine ⟨henv, hmade, ?_, ?_⟩
    · rw [← flatMap_playingLoops]
      exact Option.none_or
    · cases hplaying : playingLoops stmts with
      | nil =>
        rw [hplaying] at hclock
        cases hclock
      | cons l loops =>
        rw [hplaying] at hclock
        obtain ⟨c', hc, hof⟩ := hclock
        obtain rfl := Option.some.inj hc
        exact ⟨l, rfl, hof⟩

/-! ### Other failures -/

/-- An end without a result that is not about numbers. -/
def IsOther (e : Halt ReadError) : Prop := ∀ label, e ≠ .refused (.tooManySamples label)

/-- What has a context is not about numbers, nor is an abort. -/
theorem isOther_map {ε : Type} {context : ε → ReadError}
    (h : ∀ cause label, context cause ≠ .tooManySamples label) (e : Halt ε) :
    IsOther (e.map context) := by
  intro label heq
  obtain ⟨cause, -, hcause⟩ := Halt.map_eq_refused_iff.mp heq
  exact h cause label hcause

/-- No statement at the top is refused for its numbers. -/
theorem isOther_of_statement {env : Env} {stmt : Stmt} {e : Halt ReadError}
    (h : MayFail (env.statement stmt) e) : IsOther e := by
  cases stmt with
  | define line name param body =>
    rcases h.of_bind with h | ⟨rule, -, h⟩
    · obtain ⟨cause, -, rfl⟩ := h.of_resume
      exact isOther_map (by nofun) cause
    · dsimp only at h
      split at h
      · exact absurd h not_mayFail_pure
      · rcases h.of_bind with h | ⟨_, -, h⟩
        · exact absurd h not_mayFail_notice
        · exact absurd h not_mayFail_pure
  | liveLoop line name body => exact absurd h not_mayFail_pure
  | assign line name value =>
    obtain ⟨cause, rfl⟩ := h.of_inContext
    exact isOther_map (by nofun) cause
  | command line name args options =>
    obtain ⟨cause, rfl⟩ := h.of_inContext
    exact isOther_map (by nofun) cause
  | _ =>
    rcases h.of_bind with h | ⟨_, -, h⟩
    · exact absurd h not_mayFail_notice
    · exact absurd h not_mayFail_pure

/-- Statements at the top, one after the other, are not refused for their numbers. -/
theorem isOther_of_statements {env : Env} {e : Halt ReadError}
    (h : MayFail (stmts.foldlM Env.statement env) e) : IsOther e := by
  induction stmts generalizing env with
  | nil => exact absurd h not_mayFail_pure
  | cons stmt stmts ih =>
    rcases h.of_bind with h | ⟨_, -, h⟩
    · exact isOther_of_statement h
    · exact ih h

/-- No loop is refused for its numbers. -/
theorem isOther_of_liveLoops {env : Env} {g : Gathered} {clock : Option Clock}
    {loops : List LiveLoop} {e : Halt ReadError} (h : MayFail (env.liveLoops g clock loops) e) :
    IsOther e := by
  induction loops generalizing g clock with
  | nil => exact absurd h not_mayFail_pure
  | cons l loops ih =>
    rcases h.of_bind with h | ⟨⟨g', steps, beats⟩, -, h⟩
    · obtain ⟨cause, rfl⟩ := h.of_inContext
      exact isOther_map (by nofun) cause
    · dsimp only at h
      split at h
      · exact ih h
      · split at h
        · rcases h.of_bind with h | ⟨_, -, h⟩
          · exact absurd h not_mayFail_notice
          · exact ih h
        · exact ih h

theorem not_mayFail_notices {α : Type} {f : α → ReadNotice} {as : List α} {e : Halt ReadError} :
    ¬MayFail (as.forM fun a ↦ notice (f a)) e := by
  intro h
  induction as with
  | nil => exact not_mayFail_pure h
  | cons a as ih =>
    rcases h.of_bind with h | ⟨_, -, h⟩
    · exact not_mayFail_notice h
    · exact ih h

/-- Nothing before the numbering is refused for its numbers. -/
theorem isOther_of_gather {e : Halt ReadError} (h : MayFail (gather stmts) e) : IsOther e := by
  rcases h.of_bind with h | ⟨env, -, h⟩
  · exact isOther_of_statements h
  rcases h.of_bind with h | ⟨_, -, h⟩
  · exact absurd h not_mayFail_notices
  rcases h.of_bind with h | ⟨⟨g, clock⟩, -, h⟩
  · exact isOther_of_liveLoops h
  · dsimp only at h
    split at h
    · obtain rfl := h.of_refuse
      exact nofun
    · exact absurd h not_mayFail_pure

/-! ### Numbered tracks -/

/-- A line makes a slot whatever number a bundled slot is given later. -/
theorem SampleLine.Makes.of_sameButNumber {line : SampleLine} {s s' : Slot} (h : line.Makes stmts s)
    (hsame : SameButNumber s s') : line.Makes stmts s' := by
  obtain ⟨hsource, hrule, hfolder⟩ := hsame
  refine ⟨fun n hn ↦ ?_, fun hnone ↦ ?_, fun hguard ↦ hrule.trans (h.unguarded hguard),
    fun name args hguard ↦ hrule ▸ h.guarded name args hguard⟩
  · obtain ⟨hs, hid⟩ := h.index n hn
    rw [hfolder (by rw [hs]; rfl)]
    exact ⟨hs, hid⟩
  · rw [hsource]
    exact h.bundled hnone

/-- What a track holds of its script. -/
structure IsTrackOf (stmts : List Stmt) (env : Env) (t : Track) : Prop where
  /-- Each sample line makes one slot. -/
  slots : List.Forall₂ (SampleLine.Makes stmts) (sampleLines stmts) t.slots
  /-- The bundled slots have numbers one after the other, after those of the folder slots. -/
  numbers : bundledIds t.slots =
    List.range' (firstFree (sampleLines stmts)) (bundledCount (sampleLines stmts))
  apart : t.slots.Pairwise IsApart
  /-- The clock is that of the first loop that plays. -/
  clock : ∃ l name beats, (playingLoops stmts).head? = some l ∧
    (l.body.filterMap (tickOf? env)).getLast? = some (name, t.stepCount) ∧
    (l.body.filterMap (sleepOf? env)).getLast? = some beats ∧
    t.beatsPerStep = (Binary.ofDouble beats).toSingle
  /-- The folder is that of the first line that plays from one. -/
  samplesDir : t.samplesDir = ((sampleLines stmts).findSome? (SampleLine.dir? env)).getD ""

theorem makes_of_sameButNumber {lines : List SampleLine} {slots numbered : List Slot}
    (h : List.Forall₂ (SampleLine.Makes stmts) lines slots)
    (hsame : List.Forall₂ SameButNumber slots numbered) :
    List.Forall₂ (SampleLine.Makes stmts) lines numbered := by
  induction h generalizing numbered with
  | nil =>
    cases hsame
    exact .nil
  | cons hfirst _ ih =>
    cases hsame with
    | cons hfirst' hrest' => exact .cons (hfirst.of_sameButNumber hfirst') (ih hrest')

theorem isTrackOf_of_gathers {env : Env} {g : Gathered} {clock : Clock} {name : String}
    {numbered : List Slot} (h : Gathers stmts env g clock)
    (hsame : List.Forall₂ SameButNumber g.slots numbered)
    (hids : bundledIds numbered =
      List.range' (firstFree (sampleLines stmts)) (bundledCount (sampleLines stmts))) :
    IsTrackOf stmts env (trackOfGathered name env g clock numbered) := by
  have hmade := makes_of_sameButNumber h.slots hsame
  obtain ⟨l, hl, ⟨tickName, htick⟩, hsleep⟩ := h.clock
  refine ⟨hmade, hids, pairwise_isApart (Nat.le_refl _) (id_lt_firstFree hmade) hids,
    ⟨l, tickName, clock.beats, hl, htick, hsleep, rfl⟩, ?_⟩
  exact congrArg (·.getD "") h.samplesDir

/-- What becomes of a script, once all but its numbering is done. -/
theorem numbered_of_gathers {env : Env} {g : Gathered} {clock : Clock} (name : String)
    (h : Gathers stmts env g clock) :
    if firstFree (sampleLines stmts) + bundledCount (sampleLines stmts) ≤ 2 ^ 16 then
      ∃ numbered, numberBundled (firstBundled g.slots) g.slots = .ok numbered ∧
        IsTrackOf stmts env (trackOfGathered name env g clock numbered)
    else ∃ label, numberBundled (firstBundled g.slots) g.slots = .error (.tooManySamples label) := by
  have hfirst := firstBundled_of_makes h.slots
  have hcount := countP_of_makes h.slots
  split
  · next hroom =>
    rw [← hfirst, ← hcount] at hroom
    obtain ⟨numbered, hnumbered, hsame, hids⟩ := numberBundled_of_le hroom
    rw [hfirst, hcount] at hids
    exact ⟨numbered, hnumbered, isTrackOf_of_gathers h hsame hids⟩
  · next hfull =>
    have hlow := firstFree_le h.slots
    rw [← hfirst, ← hcount] at hfull
    rw [← hfirst] at hlow
    exact numberBundled_of_gt hlow (by omega)

theorem isTrackOf_of_mayGive {name : String} {t : Track} (h : MayGive (trackOf stmts name) t) :
    ∃ env, IsTrackOf stmts env t := by
  rw [trackOf_eq] at h
  obtain ⟨⟨env, g, clock⟩, hgather, h⟩ := h.of_bind
  obtain ⟨slots, hslots, h⟩ := h.of_bind
  obtain rfl := h.of_pure
  have hnumbered := numbered_of_gathers name (gathers_of_mayGive hgather)
  split at hnumbered
  · obtain ⟨numbered, hnumbered, htrack⟩ := hnumbered
    obtain rfl := Except.ok.inj (hslots.of_within.symm.trans hnumbered)
    exact ⟨env, htrack⟩
  · obtain ⟨label, hlabel⟩ := hnumbered
    cases hslots.of_within.symm.trans hlabel

/-- **The slots of a script.** A track that a script gives has one slot for each sample line, in
their order and with their rules, and its bundled slots are numbered after the folder slots. A script
is refused for its numbers exactly if nothing else is wrong with it and they run out. -/
theorem trackOf_numbered (stmts : List Stmt) (name : String) :
    (∀ t, ((trackOf stmts name).run.run []).1 = .ok t →
      ∃ env, MayGive (stmts.foldlM Env.statement .empty) env ∧ IsTrackOf stmts env t) ∧
    ((∃ label, ((trackOf stmts name).run.run []).1 = .error (.refused (.tooManySamples label))) ↔
      (∃ gathered, ((gather stmts).run.run []).1 = .ok gathered) ∧
        2 ^ 16 < firstFree (sampleLines stmts) + bundledCount (sampleLines stmts)) := by
  rw [trackOf_eq, ExceptT.run_bind, StateT.run_bind]
  rcases hgather : (gather stmts).run.run [] with ⟨e | ⟨env, g, clock⟩, more⟩
  · -- what fails before the numbering has another cause
    have hother : IsOther e := isOther_of_gather (mayFail_of_run (congrArg Prod.fst hgather))
    refine ⟨nofun, fun ⟨label, hlabel⟩ ↦ absurd (Except.error.inj hlabel) (hother label), ?_⟩
    rintro ⟨⟨_, ⟨⟩⟩, -⟩
  · have h := gathers_of_mayGive (mayGive_of_run (congrArg Prod.fst hgather))
    have hnumbered := numbered_of_gathers name h
    split at hnumbered
    · next hroom =>
      obtain ⟨numbered, hnumbered, htrack⟩ := hnumbered
      have hrun : ((within id (numberBundled (firstBundled g.slots) g.slots) >>= fun slots ↦
          pure (trackOfGathered name env g clock slots) : Reading Track).run.run more).1 =
          .ok (trackOfGathered name env g clock numbered) := by
        rw [hnumbered]
        rfl
      refine ⟨fun t ht ↦ ?_, fun ⟨label, hlabel⟩ ↦ ?_, fun ⟨_, hfull⟩ ↦ absurd hroom (by omega)⟩
      · obtain rfl := Except.ok.inj (hrun.symm.trans ht)
        exact ⟨env, h.names, htrack⟩
      · cases hrun.symm.trans hlabel
    · next hfull =>
      obtain ⟨label, hlabel⟩ := hnumbered
      have hrun : ((within id (numberBundled (firstBundled g.slots) g.slots) >>= fun slots ↦
          pure (trackOfGathered name env g clock slots) : Reading Track).run.run more).1 =
          .error (.refused (.tooManySamples label)) := by
        rw [hlabel]
        rfl
      refine ⟨fun t ht ↦ ?_, fun _ ↦ ⟨⟨_, rfl⟩, by omega⟩, fun _ ↦ ⟨label, hrun⟩⟩
      cases hrun.symm.trans ht

/-- Two loops play samples of a folder and bundled samples in turn. The first guards the sample with
the given index by a function that is defined before the loop and again after it. -/
def inTurn (index : Int64) : List Stmt :=
  [.assign 1 "n" (.call "range" [.int 0, .int 4, .int 1]),
    .define 2 "f" (some "x") [.ret 2 (some (.bool false))],
    .liveLoop 3 "a" [.assign 4 "i" (.method (.var "n") "tick" []),
      .cond 5 [(.call "f" [.var "i"], [.command 5 "sample" [.str "kit", .int index] []])] [],
      .command 6 "sample" [.symbol "kick"] [],
      .command 7 "sleep" [.int 1] []],
    .define 8 "f" (some "x") [.ret 8 (some (.bool true))],
    .liveLoop 9 "b" [.assign 10 "i" (.method (.var "n") "tick" []),
      .command 11 "sample" [.str "kit", .int 1] [],
      .command 12 "sample" [.symbol "snare"] [],
      .command 13 "sleep" [.int 2] []]]

/-- After the index three there are numbers for both bundled slots, and the guard is the function's
last definition. Close enough to the last number there is one bundled slot too many. -/
theorem trackOf_numbered_inTurn :
    (∃ t env, ((trackOf (inTurn 3) "").run.run []).1 = .ok t ∧ IsTrackOf (inTurn 3) env t ∧
      t.slots.map (fun s ↦ (s.id.toNat, s.rule.fires 0)) =
        [(3, true), (4, true), (1, true), (5, true)]) ∧
    ∃ label, ((trackOf (inTurn 65534) "").run.run []).1 =
      .error (.refused (.tooManySamples label)) := by
  constructor
  · have hread : ((trackOf (inTurn 3) "").run.run []).1.toOption.map (fun t ↦
        t.slots.map fun s ↦ (s.id.toNat, s.rule.fires 0)) =
        some [(3, true), (4, true), (1, true), (5, true)] := by
      decide +kernel
    obtain ⟨t, ht, hslots⟩ := Option.map_eq_some_iff.mp hread
    have hrun := toOption_eq_some_iff.mp ht
    obtain ⟨env, -, htrack⟩ := (trackOf_numbered (inTurn 3) "").1 t hrun
    exact ⟨t, env, hrun, htrack, hslots⟩
  · have hgather : ((gather (inTurn 65534)).run.run []).1.toOption.isSome = true := by
      decide +kernel
    obtain ⟨gathered, hgathered⟩ := Option.isSome_iff_exists.mp hgather
    have hfull : 2 ^ 16 < firstFree (sampleLines (inTurn 65534)) +
        bundledCount (sampleLines (inTurn 65534)) := by
      decide +kernel
    exact (trackOf_numbered (inTurn 65534) "").2.mpr
      ⟨⟨gathered, toOption_eq_some_iff.mp hgathered⟩, hfull⟩

end StepSequencer.Script
