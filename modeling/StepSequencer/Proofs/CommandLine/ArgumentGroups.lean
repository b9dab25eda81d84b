import Mathlib.Data.List.Induction
import StepSequencer.CommandLine.Options
import StepSequencer.Proofs.Attempts
import StepSequencer.Proofs.Entries

/-!
# Arguments in any order

The arguments of a command line come in groups: a flag, an option with its value, or the path of the
track. Read from the left, a group is recognised by its first argument, and an option takes the
argument after it whatever that looks like, so no value is ever read as a group of its own
(`readArguments_group`).

What the groups ask for depends on which flags there are, on the path, and on the last value of each
option, and on no order (`asked`). Reading gives just this, for every list of groups with at most
one path (`ofArguments_line`).
-/

namespace StepSequencer

/-- Arguments that belong together. -/
inductive ArgumentGroup where
  /-- A flag, in one of its written forms. -/
  | flag (text : String) (f : Flag)
  /-- An option and the text of its value. -/
  | value (option : ValueOption) (text : String)
  /-- The path of the track. -/
  | track (path : String)

namespace ArgumentGroup

/-- The arguments of the group. -/
def arguments : ArgumentGroup → List String
  | .flag text _ => [text]
  | .value option text => [option.name, text]
  | .track path => [path]

/-- The arguments of the groups, one group after the other. -/
def line (gs : List ArgumentGroup) : List String := gs.flatMap arguments

/-- The text is a value for the option: a number where the option counts or measures, and anything
where it names a place. -/
def IsValueFor (text : String) : ValueOption → Prop
  | .ticks => ∃ n, NumberText.count text = .ok n
  | .bpm => ∃ x, NumberText.float text = .ok x
  | .samples | .exportPath => True

/-- The group is written as it should be. A path looks like no flag and like no option. -/
def IsWritten : ArgumentGroup → Prop
  | .flag text f => (text, f) ∈ Flag.table
  | .value option text => IsValueFor text option
  | .track path => path ≠ "-h" ∧ path.startsWith "--" = false

/-! ### What the groups ask for -/

/-- The path that the group gives, if it is one. -/
def path? : ArgumentGroup → Option String
  | .track path => some path
  | _ => none

/-- The option and the value that the group gives, if it is one. -/
def value? : ArgumentGroup → Option (ValueOption × String)
  | .value option text => some (option, text)
  | _ => none

/-- The flag that the group is, if it is one. -/
def flag? : ArgumentGroup → Option Flag
  | .flag _ f => some f
  | _ => none

/-- The paths that the groups give. -/
def paths (gs : List ArgumentGroup) : List String := gs.filterMap path?

/-- The values that the groups give, each with its option. -/
def values (gs : List ArgumentGroup) : List (ValueOption × String) := gs.filterMap value?

/-- The flags among the groups. -/
def flags (gs : List ArgumentGroup) : List Flag := gs.filterMap flag?

theorem paths_concat (gs : List ArgumentGroup) (g : ArgumentGroup) :
    paths (gs ++ [g]) = paths gs ++ g.path?.toList := by
  rw [paths, List.filterMap_append]
  cases g <;> rfl

theorem values_concat (gs : List ArgumentGroup) (g : ArgumentGroup) :
    values (gs ++ [g]) = values gs ++ g.value?.toList := by
  rw [values, List.filterMap_append]
  cases g <;> rfl

theorem flags_concat (gs : List ArgumentGroup) (g : ArgumentGroup) :
    flags (gs ++ [g]) = flags gs ++ g.flag?.toList := by
  rw [flags, List.filterMap_append]
  cases g <;> rfl

/-- The last value that the groups give for an option, if they give one. -/
def lastValue? (gs : List ArgumentGroup) (option : ValueOption) : Option String :=
  Entries.last? (values gs) option

/-- What the groups ask for. -/
def asked (gs : List ArgumentGroup) : Options where
  track := (paths gs).getLast?
  help := .help ∈ flags gs
  dryRun := .dryRun ∈ flags gs
  tui := .tui ∈ flags gs
  grid := .grid ∈ flags gs
  ticks := (lastValue? gs .ticks).bind fun text ↦ (NumberText.count text).toOption
  samples := lastValue? gs .samples
  bpm := (lastValue? gs .bpm).bind fun text ↦ (NumberText.float text).toOption
  exportPath := lastValue? gs .exportPath

end ArgumentGroup

open ArgumentGroup

/-! ### Reading one group -/

namespace Argument

theorem ofText_flag {text : String} {f : Flag} (h : (text, f) ∈ Flag.table) :
    ofText text = .flag f := by
  simp only [Flag.table, List.mem_cons, List.not_mem_nil, or_false, Prod.mk.injEq] at h
  obtain ⟨rfl, rfl⟩ | ⟨rfl, rfl⟩ | ⟨rfl, rfl⟩ | ⟨rfl, rfl⟩ | ⟨rfl, rfl⟩ := h <;> decide

theorem ofText_option (option : ValueOption) : ofText option.name = .option option := by
  cases option <;> decide

/-- Every flag but one, and every option, begins with two dashes. -/
theorem startsWith_of_mem_table {name : String} (hhelp : name ≠ "-h")
    (h : name ∈ Flag.table.map Prod.fst ++ ValueOption.table.map Prod.fst) :
    name.startsWith "--" = true := by
  simp only [Flag.table, ValueOption.table, ValueOption.name, List.map_cons, List.map_nil,
    List.cons_append, List.nil_append, List.mem_cons, List.not_mem_nil, or_false] at h
  obtain rfl | rfl | rfl | rfl | rfl | rfl | rfl | rfl | rfl := h
  · exact absurd rfl hhelp
  all_goals simp

theorem ofText_track {path : String} (hhelp : path ≠ "-h")
    (hdashes : path.startsWith "--" = false) : ofText path = .track path := by
  have hnot : path ∉ Flag.table.map Prod.fst ++ ValueOption.table.map Prod.fst := fun h ↦
    Bool.false_ne_true (hdashes.symm.trans (startsWith_of_mem_table hhelp h))
  rw [List.mem_append, not_or] at hnot
  have hflag : Flag.table.lookup path = none :=
    List.lookup_eq_none_iff.mpr fun p hp ↦ bne_iff_ne.mpr fun heq ↦
      hnot.1 (heq ▸ List.mem_map_of_mem hp)
  have hoption : ValueOption.table.lookup path = none :=
    List.lookup_eq_none_iff.mpr fun p hp ↦ bne_iff_ne.mpr fun heq ↦
      hnot.2 (heq ▸ List.mem_map_of_mem hp)
  rw [ofText, hflag, hoption]
  exact if_neg (Bool.eq_false_iff.mp hdashes)

end Argument

namespace Options

/-- The options with what one more group asks for. -/
def withGroup (o : Options) : ArgumentGroup → Options
  | .flag _ f => o.setFlag f
  | .value option text => (o.setValue option text).toOption.getD o
  | .track path => { o with track := some path }

/-- A value that is one for its option can be set. -/
theorem setValue_eq_ok (o : Options) {option : ValueOption} {text : String}
    (h : IsValueFor text option) :
    o.setValue option text = .ok (o.withGroup (.value option text)) := by
  cases option with
  | ticks | bpm =>
    obtain ⟨n, hn⟩ := h
    rw [withGroup, setValue, hn]
    rfl
  | samples | exportPath => rfl

variable {gs gs' : List ArgumentGroup} {o : Options}

/-- **A group is read as one**: what follows it is read with what the group asks for. -/
theorem readArguments_group {g : ArgumentGroup} (hg : g.IsWritten)
    (hpath : o.track.isSome → g.path? = .none) (rest : List String) :
    o.readArguments (g.arguments ++ rest) = (o.withGroup g).readArguments rest := by
  cases g with
  | flag text f =>
    show o.readArguments (text :: rest) = _
    rw [readArguments.eq_def]
    dsimp only
    rw [Argument.ofText_flag hg]
    rfl
  | value option text =>
    show o.readArguments (option.name :: text :: rest) = _
    rw [readArguments.eq_def]
    dsimp only
    rw [Argument.ofText_option]
    dsimp only
    rw [setValue_eq_ok o hg]
  | track path =>
    have hfirst : ¬o.track.isSome = true := fun h ↦ nomatch hpath h
    show o.readArguments (path :: rest) = _
    rw [readArguments.eq_def]
    dsimp only
    rw [Argument.ofText_track hg.1 hg.2]
    exact if_neg hfirst

/-- Only a path sets the path. -/
theorem track_withGroup (o : Options) (g : ArgumentGroup) :
    (o.withGroup g).track = g.path?.or o.track := by
  cases g with
  | flag text f => cases f <;> rfl
  | track path => rfl
  | value option text =>
    cases option with
    | samples | exportPath => rfl
    | ticks =>
      rw [withGroup, setValue]
      rcases NumberText.count text with e | n <;> rfl
    | bpm =>
      rw [withGroup, setValue]
      rcases NumberText.float text with e | x <;> rfl

/-- **Groups are read one after the other**, if at most one of them is a path. -/
theorem readArguments_line (hgs : ∀ g ∈ gs, g.IsWritten)
    (hpaths : (o.track.toList ++ paths gs).length ≤ 1) :
    o.readArguments (line gs) = .ok (gs.foldl withGroup o) := by
  induction gs generalizing o with
  | nil => rfl
  | cons g gs ih =>
    obtain ⟨hg, hgs⟩ := List.forall_mem_cons.mp hgs
    -- a path comes first, and nothing but other groups after it
    have hroom : (o.track.isSome → g.path? = .none) ∧
        ((o.withGroup g).track.toList ++ paths gs).length ≤ 1 := by
      rw [track_withGroup]
      rcases hpath : g.path? with - | path
      · rw [paths, List.filterMap_cons_none hpath] at hpaths
        exact ⟨fun _ ↦ rfl, hpaths⟩
      · rw [paths, List.filterMap_cons_some hpath, List.length_append, List.length_cons] at hpaths
        have hnone : o.track = .none := by
          rcases htrack : o.track with - | other
          · rfl
          · rw [htrack, Option.toList_some, List.length_singleton] at hpaths
            omega
        refine ⟨fun h ↦ ?_, ?_⟩
        · rw [hnone] at h
          cases h
        · rw [Option.some_or, Option.toList_some, List.singleton_append, List.length_cons]
          exact Nat.le_trans (Nat.le_add_left _ _) hpaths
    have hread : o.readArguments (line (g :: gs)) = (o.withGroup g).readArguments (line gs) :=
      readArguments_group hg hroom.1 _
    rw [hread]
    exact ih hgs hroom.2

/-! ### What is read -/

/-- One more group at the end. -/
theorem asked_concat {g : ArgumentGroup} (hg : g.IsWritten) :
    asked (gs ++ [g]) = (asked gs).withGroup g := by
  unfold asked lastValue?
  rw [paths_concat, values_concat, flags_concat]
  cases g with
  | flag text f => cases f <;> simp [path?, value?, flag?, withGroup, setFlag]
  | value option text =>
    -- the last value of this option is now the new one, and those of the others stay
    have hlast : Entries.last? (values gs ++ [(option, text)]) option = some text :=
      Entries.last?_concat_self (values gs) option text
    have hother {other : ValueOption} (hne : option ≠ other) :
        Entries.last? (values gs ++ [(option, text)]) other = Entries.last? (values gs) other :=
      Entries.last?_concat_of_ne hne (values gs) text
    cases option with
    | ticks | bpm =>
      obtain ⟨n, hn⟩ := hg
      simp [path?, value?, flag?, withGroup, setValue, hlast, hother, hn, Except.toOption,
        Except.map, Except.mapError]
    | samples | exportPath =>
      simp [path?, value?, flag?, withGroup, setValue, hlast, hother, Except.toOption]
  | track path => simp [path?, value?, flag?, withGroup]

theorem foldl_withGroup (hgs : ∀ g ∈ gs, g.IsWritten) : gs.foldl withGroup none = asked gs := by
  induction gs using List.reverseRecOn with
  | nil => rfl
  | append_singleton gs g ih =>
    obtain ⟨hgs, hg⟩ := List.forall_mem_append.mp hgs
    rw [List.foldl_concat, ih hgs, asked_concat (hg g (List.mem_singleton_self g))]

/-- **What is read is what the groups ask for**, unless they give no path and ask for no help. -/
theorem ofArguments_line (hgs : ∀ g ∈ gs, g.IsWritten) (hpaths : (paths gs).length ≤ 1) :
    ofArguments (line gs) =
      if paths gs = [] ∧ .help ∉ flags gs then .error .noTrack else .ok (asked gs) := by
  have hread : none.readArguments (line gs) = .ok (asked gs) := by
    rw [readArguments_line (o := none) hgs hpaths, foldl_withGroup hgs]
  have hnoTrack : ((asked gs).track.isNone && !(asked gs).help) = true ↔
      paths gs = [] ∧ .help ∉ flags gs := by
    simp [asked]
  rw [ofArguments, hread]
  show (if ((asked gs).track.isNone && !(asked gs).help) = true then _ else _) = _
  by_cases h : paths gs = [] ∧ .help ∉ flags gs
  · rw [if_pos (hnoTrack.mpr h), if_pos h]
    rfl
  · rw [if_neg (mt hnoTrack.mp h), if_neg h]
    rfl

/-- What is asked depends on nothing but the flags, the path and the last values. -/
theorem asked_congr (hpaths : paths gs' = paths gs) (hflags : ∀ f, f ∈ flags gs' ↔ f ∈ flags gs)
    (hvalues : ∀ option, lastValue? gs' option = lastValue? gs option) : asked gs' = asked gs := by
  simp only [asked, hpaths, hflags, hvalues]

/-- **Arguments in any order.** Groups with at most one path are read as what they ask for. In
another order they are read as the same, if no option has two values. And whichever groups have the
same flags, the same path and the same last values are read as the same: an earlier value counts for
nothing. -/
theorem ofArguments_orderless (hgs : ∀ g ∈ gs, g.IsWritten) (hpaths : (paths gs).length ≤ 1) :
    ofArguments (line gs) =
      (if paths gs = [] ∧ .help ∉ flags gs then .error .noTrack else .ok (asked gs)) ∧
    (∀ gs', gs'.Perm gs → ((values gs).map Prod.fst).Nodup →
      ofArguments (line gs') = ofArguments (line gs)) ∧
    ∀ gs', (∀ g ∈ gs', g.IsWritten) → paths gs' = paths gs →
      (∀ f, f ∈ flags gs' ↔ f ∈ flags gs) →
      (∀ option, lastValue? gs' option = lastValue? gs option) →
      ofArguments (line gs') = ofArguments (line gs) := by
  have hsame (gs' : List ArgumentGroup) (hgs' : ∀ g ∈ gs', g.IsWritten)
      (hpaths' : paths gs' = paths gs) (hflags : ∀ f, f ∈ flags gs' ↔ f ∈ flags gs)
      (hvalues : ∀ option, lastValue? gs' option = lastValue? gs option) :
      ofArguments (line gs') = ofArguments (line gs) := by
    rw [ofArguments_line hgs hpaths, ofArguments_line hgs' (hpaths' ▸ hpaths),
      asked_congr hpaths' hflags hvalues]
    simp only [hpaths', hflags]
  refine ⟨ofArguments_line hgs hpaths, fun gs' hperm hnodup ↦ ?_, hsame⟩
  have hvalues : (values gs').Perm (values gs) := hperm.filterMap value?
  refine hsame gs' (fun g hg ↦ hgs g (hperm.mem_iff.mp hg)) ?_ (fun f ↦ ?_) fun option ↦ ?_
  · exact Entries.eq_of_perm_of_length_le_one (hperm.filterMap path?) hpaths
  · exact (hperm.filterMap flag?).mem_iff
  · rw [lastValue?, lastValue?, Entries.last?, Entries.last?,
      Entries.filter_eq_of_nodup hvalues hnodup]

/-- A folder that looks like a flag, moved to the end and back to front; and a count that a later
one overrides, with the path between them. -/
theorem ofArguments_orderless_moved :
    let gs : List ArgumentGroup :=
      [.track "song.rb", .value .samples "--tui", .flag "--grid" .grid, .value .ticks "16"]
    let moved : List ArgumentGroup := gs.reverse
    let twice : List ArgumentGroup :=
      [.value .ticks "4", .track "song.rb", .value .ticks "16", .flag "--grid" .grid,
        .value .samples "--tui"]
    (line gs = ["song.rb", "--samples", "--tui", "--grid", "--ticks", "16"] ∧
      (∀ g ∈ gs, g.IsWritten) ∧ (paths gs).length ≤ 1) ∧
    (ofArguments (line gs) = .ok (asked gs) ∧ (asked gs).samples = some "--tui" ∧
      (asked gs).tui = false ∧ (asked gs).ticks = some 16) ∧
    (moved.Perm gs ∧ ((values gs).map Prod.fst).Nodup ∧
      ofArguments (line moved) = ofArguments (line gs)) ∧
    ((∀ g ∈ twice, g.IsWritten) ∧ paths twice = paths gs ∧ (∀ f, f ∈ flags twice ↔ f ∈ flags gs) ∧
      (∀ option, lastValue? twice option = lastValue? gs option) ∧
      ofArguments (line twice) = ofArguments (line gs)) := by
  intro gs moved twice
  have hsong : (ArgumentGroup.track "song.rb").IsWritten := ⟨by decide, by simp⟩
  have hgrid : (ArgumentGroup.flag "--grid" .grid).IsWritten :=
    show ("--grid", Flag.grid) ∈ Flag.table by decide
  have hgs : ∀ g ∈ gs, g.IsWritten := by
    simp only [gs, List.forall_mem_cons]
    exact ⟨hsong, trivial, hgrid, ⟨16, by decide⟩, List.forall_mem_nil _⟩
  have htwice : ∀ g ∈ twice, g.IsWritten := by
    simp only [twice, List.forall_mem_cons]
    exact ⟨⟨4, by decide⟩, hsong, ⟨16, by decide⟩, hgrid, trivial, List.forall_mem_nil _⟩
  have hpaths : (paths gs).length ≤ 1 := by decide
  obtain ⟨hread, horder, hsame⟩ := ofArguments_orderless hgs hpaths
  have hperm : moved.Perm gs := List.reverse_perm gs
  have hnodup : ((values gs).map Prod.fst).Nodup := by decide
  have hvalues (option : ValueOption) : lastValue? twice option = lastValue? gs option := by
    cases option <;> decide
  exact ⟨⟨by decide, hgs, hpaths⟩,
    ⟨hread.trans (if_neg (by decide)), by decide, by decide, by decide⟩,
    ⟨hperm, hnodup, horder moved hperm hnodup⟩,
    ⟨htwice, by decide, fun f ↦ Iff.rfl, hvalues,
      hsame twice htwice (by decide) (fun f ↦ Iff.rfl) hvalues⟩⟩

end Options

end StepSequencer
