import Mathlib.Data.List.Basic
import Mathlib.Data.List.Forall2
import StepSequencer.Proofs.Attempts
import StepSequencer.Proofs.Script.Readings

/-!
# The slots of a script

What the sample lines of a script become. They are read off the statements alone (`sampleLines`),
whichever loop they stand in; a guard names the last function of its name in the whole script
(`Names`). Reading goes through the statements twice, first for names and functions and then for
loops. Each fold has one lemma for a step, which says everything that a statement can do, and one for
the run.
-/

namespace StepSequencer.Script

/-! ### What the statements say -/

/-- The loops that play. -/
def playingLoops (stmts : List Stmt) : List LiveLoop :=
  (stmts.filterMap LiveLoop.of?).filter (·.plays)

/-- The sample lines among statements. -/
def linesOf (body : List Stmt) : List SampleLine := body.filterMap SampleLine.of?

/-- The sample lines of a script: those of all its loops, in order. -/
def sampleLines (stmts : List Stmt) : List SampleLine :=
  (stmts.filterMap LiveLoop.of?).flatMap fun l ↦ linesOf l.body

/-- The function of a name that a statement defines. -/
def definitionOf? (name : String) : Stmt → Option (Option String × List Stmt)
  | .define _ defined param body => if defined = name then some (param, body) else none
  | _ => none

/-- The last function of a name. -/
def definition? (name : String) (stmts : List Stmt) : Option (Option String × List Stmt) :=
  (stmts.filterMap (definitionOf? name)).getLast?

/-- The rule that a name stands for: that of its last function, or none that ever fires. -/
def Names (stmts : List Stmt) (name : String) (r : Rule) : Prop :=
  match definition? name stmts with
  | none => r = .never
  | some (param, body) => Body.block param body = .ok r

/-- What a statement ticks: the name for the current step, and the length of the range. -/
def tickOf? (env : Env) : Stmt → Option Ticked
  | .assign _ name (.method (.var range) "tick" _) => (env.ranges.lookup range).map (name, ·)
  | _ => none

/-- How many beats a statement sleeps. -/
def sleepOf? (env : Env) : Stmt → Option Float
  | .command _ "sleep" [beats] _ => (env.number beats).toOption
  | _ => none

namespace SampleLine

/-- The index of a line that plays from a folder. -/
def index? (s : SampleLine) : Option Nat :=
  match s.args with
  | [_, .int n] => some n.toInt.toNat
  | _ => none

/-- The folder that a line names. -/
def dir? (env : Env) (s : SampleLine) : Option String :=
  match s.args with
  | [dir, _] => (env.folder dir).toOption
  | _ => none

/-- The line makes the slot. A slot of a folder has the written index, one of a bundled sample only
its name, and a guard that is a call gives the rule that its name stands for. -/
structure Makes (stmts : List Stmt) (s : SampleLine) (slot : Slot) : Prop where
  index : ∀ n, s.index? = some n → slot.source = .folder ∧ slot.id.toNat = n
  bundled : s.index? = none → ∃ name, slot.source = .bundled name ∧
    (s.args = [.symbol name] ∨ s.args = [.var name])
  unguarded : s.guard = none → slot.rule = .always
  guarded : ∀ name args, s.guard = some (.call name args) → Names stmts name slot.rule

end SampleLine

/-! ### Functions -/

variable {stmts : List Stmt} {env env' : Env}

theorem functions_of_assign {name : String} {value : Expr}
    (h : MayGive (env.assign name value) env') : env'.functions = env.functions := by
  unfold Env.assign at h
  split at h
  · rw [← h.of_pure]
  · obtain ⟨_, -, h⟩ := h.of_bind
    obtain ⟨_, -, h⟩ := h.of_bind
    rw [← h.of_pure]
  · split at h
    · rw [← h.of_pure]
    · obtain ⟨_, -, h⟩ := h.of_bind
      rw [← h.of_pure]

theorem functions_of_command {name : String} {args : List Expr}
    (h : MayGive (env.command name args) env') : env'.functions = env.functions := by
  unfold Env.command at h
  split at h
  all_goals
    obtain ⟨_, -, h⟩ := h.of_bind
    rw [← h.of_pure]

/-- Only a definition adds to the functions. -/
theorem functions_of_statement {stmt : Stmt} (h : MayGive (env.statement stmt) env') :
    (∃ line name param body rule, stmt = .define line name param body ∧
      Body.block param body = .ok rule ∧ env'.functions = (name, rule) :: env.functions) ∨
    ((∀ name, definitionOf? name stmt = none) ∧ env'.functions = env.functions) := by
  cases stmt with
  | define line name param body =>
    obtain ⟨rule, hrule, h⟩ := h.of_bind
    dsimp only at h
    refine .inl ⟨line, name, param, body, rule, rfl, hrule.of_resume, ?_⟩
    rcases h.of_ite with h | h
    · rw [← h.of_pure]
    · obtain ⟨_, -, h⟩ := h.of_bind
      rw [← h.of_pure]
  | liveLoop line name body => exact .inr ⟨fun _ ↦ rfl, by rw [← h.of_pure]⟩
  | assign line name value => exact .inr ⟨fun _ ↦ rfl, functions_of_assign h.of_inContext⟩
  | command line name args options => exact .inr ⟨fun _ ↦ rfl, functions_of_command h.of_inContext⟩
  | _ =>
    obtain ⟨_, -, h⟩ := h.of_bind
    exact .inr ⟨fun _ ↦ rfl, by rw [← h.of_pure]⟩

theorem getLast?_filterMap_cons {α β : Type} (f : α → Option β) (a : α) (as : List α) :
    ((a :: as).filterMap f).getLast? = ((as.filterMap f).getLast?).or (f a) := by
  rw [List.filterMap_cons]
  cases f a with
  | none => rw [Option.or_none]
  | some b =>
    rw [List.getLast?_cons]
    cases (as.filterMap f).getLast? <;> rfl

/-- A name stands for its last function among the statements, or for what it stood for before. -/
theorem lookup_of_statements (h : MayGive (stmts.foldlM Env.statement env) env') (name : String) :
    match definition? name stmts with
    | none => env'.functions.lookup name = env.functions.lookup name
    | some (param, body) =>
      ∃ r, Body.block param body = .ok r ∧ env'.functions.lookup name = some r := by
  induction stmts generalizing env with
  | nil => rw [← h.of_pure]; rfl
  | cons stmt stmts ih =>
    obtain ⟨between, hfirst, hrest⟩ := h.of_bind
    have hlast := ih hrest
    rw [definition?, getLast?_filterMap_cons, ← definition?]
    cases hlater : definition? name stmts with
    | some d => rwa [hlater] at hlast
    | none =>
      rw [hlater] at hlast
      dsimp only at hlast
      rw [Option.none_or]
      rcases functions_of_statement hfirst with ⟨_, defined, param, body, rule, rfl, hrule, hfunctions⟩ |
        ⟨hother, hfunctions⟩
      · rw [hlast, hfunctions, List.lookup_cons, definitionOf?]
        by_cases hname : defined = name
        · rw [if_pos hname, hname, beq_self_eq_true]
          exact ⟨rule, hrule, rfl⟩
        · rw [if_neg hname, beq_false_of_ne (Ne.symm hname)]
      · rw [hother, hlast, hfunctions]

/-- After the whole script, each name stands for the rule of its last function. -/
theorem names_of_statements (h : MayGive (stmts.foldlM Env.statement .empty) env) (name : String) :
    Names stmts name ((env.functions.lookup name).getD .never) := by
  have hlookup := lookup_of_statements h name
  rw [Names]
  cases hdefinition : definition? name stmts with
  | none =>
    rw [hdefinition] at hlookup
    dsimp only at hlookup ⊢
    rw [hlookup]
    rfl
  | some d =>
    rw [hdefinition] at hlookup
    obtain ⟨r, hr, hfound⟩ := hlookup
    dsimp only
    rwa [hfound]

/-! ### Sample lines -/

theorem folder_or_bundled {args : List Expr} {choice : SampleChoice}
    (h : env.choice args = .ok choice) :
    (∃ e n dir, args = [e, .int n] ∧ env.folder e = .ok dir ∧ 0 ≤ n.toInt ∧ n.toInt < 2 ^ 16 ∧
      choice = .folder dir (UInt16.ofNat n.toInt.toNat)) ∨
    (∃ name, (args = [.symbol name] ∨ args = [.var name]) ∧ choice = .bundled name) := by
  unfold Env.choice at h
  split at h
  · next e index =>
    obtain ⟨dir, hdir, h⟩ := Attempts.bind_eq_ok_iff.mp h
    obtain ⟨i, hindex, h⟩ := Attempts.bind_eq_ok_iff.mp h
    unfold sampleIndex at hindex
    split at hindex
    · next n h =>
      split at hindex
      · next hrange =>
        obtain rfl := Except.ok.inj hindex
        exact .inl ⟨e, n, dir, rfl, hdir, hrange.1, hrange.2, (Except.ok.inj h).symm⟩
      · cases hindex
    · cases hindex
  · next name => exact .inr ⟨name, .inl rfl, (Except.ok.inj h).symm⟩
  · next name =>
    split at h
    · exact .inr ⟨name, .inr rfl, (Except.ok.inj h).symm⟩
    · cases h
  · cases h

theorem rule_of_guard {sample : String} {ticked : Option Ticked} {guard : Option Expr}
    {label : Option String} {rule : Rule} (h : MayGive (env.guardRule sample ticked guard) (label, rule)) :
    (guard = none → rule = .always) ∧
      ∀ name args, guard = some (.call name args) → rule = (env.functions.lookup name).getD .never := by
  unfold Env.guardRule at h
  split at h
  · obtain ⟨-, rfl⟩ := Prod.mk.inj h.of_pure
    exact ⟨fun _ ↦ rfl, nofun⟩
  · next name args =>
    dsimp only at h
    refine ⟨nofun, ?_⟩
    rintro _ _ ⟨⟩
    rcases h.of_ite with h | h
    · cases hfound : env.functions.lookup name with
      | some found =>
        rw [hfound] at h
        exact (Prod.mk.inj h.of_pure).2.symm
      | none =>
        rw [hfound] at h
        obtain ⟨_, -, h⟩ := h.of_bind
        exact (Prod.mk.inj h.of_pure).2.symm
    · obtain ⟨_, hthrow, -⟩ := h.of_bind
      exact absurd hthrow not_mayGive_refuse
  · next e hcall =>
    exact ⟨nofun, fun name args hguard ↦ absurd (Option.some.inj hguard) (hcall name args)⟩

section Loops

variable (hnames : ∀ name, Names stmts name ((env.functions.lookup name).getD .never))

include hnames

/-- What a sample line gives: its slot, and its folder if it names one. -/
theorem makes_of_sample {ticked : Option Ticked} {s : SampleLine} {dir : Option String} {slot : Slot}
    (h : MayGive (env.sample ticked s) (dir, slot)) : s.Makes stmts slot ∧ dir = s.dir? env := by
  obtain ⟨choice, hchoice, h⟩ := h.of_bind
  obtain ⟨options, -, h⟩ := h.of_bind
  obtain ⟨_, -, h⟩ := h.of_bind
  obtain ⟨⟨label, rule⟩, hguard, h⟩ := h.of_bind
  obtain ⟨rfl, rfl⟩ := Prod.mk.inj h.of_pure
  obtain ⟨hunguarded, hguarded⟩ := rule_of_guard hguard
  have hrule : ∀ name args, s.guard = some (.call name args) → Names stmts name rule :=
    fun name args hcall ↦ hguarded name args hcall ▸ hnames name
  rcases folder_or_bundled hchoice.of_within with ⟨e, n, dir, hargs, hdir, hlow, hhigh, rfl⟩ |
    ⟨name, hargs, rfl⟩
  · have hindex : s.index? = some n.toInt.toNat := by rw [SampleLine.index?, hargs]
    refine ⟨⟨?_, ?_, hunguarded, hrule⟩, ?_⟩
    · -- the index was checked, so the word of 16 bits holds it
      rintro i hi
      obtain rfl := Option.some.inj (hindex.symm.trans hi)
      refine ⟨rfl, ?_⟩
      show (UInt16.ofNat n.toInt.toNat).toNat = _
      rw [UInt16.toNat_ofNat', Nat.mod_eq_of_lt (by omega)]
    · intro hnone
      rw [hindex] at hnone
      cases hnone
    · have hdir? : s.dir? env = (env.folder e).toOption := by rw [SampleLine.dir?, hargs]
      rw [hdir?, hdir]
      rfl
  · have hindex : s.index? = none := by
      rcases hargs with hargs | hargs <;> rw [SampleLine.index?, hargs]
    refine ⟨⟨?_, fun _ ↦ ⟨name, rfl, hargs⟩, hunguarded, hrule⟩, ?_⟩
    · intro i hi
      rw [hindex] at hi
      cases hi
    · rcases hargs with hargs | hargs <;> rw [SampleLine.dir?, hargs] <;> rfl

omit hnames in
theorem add_eq {g g' : Gathered} {line : Nat} {dir : Option String} {slot : Slot}
    (h : MayGive (g.add line dir slot) g') : g' = ⟨g.samplesDir.or dir, g.slots ++ [slot]⟩ := by
  have hpure : MayGive (pure ⟨g.samplesDir <|> dir, g.slots ++ [slot]⟩) g' := by
    unfold Gathered.add at h
    dsimp only at h
    split at h
    · rcases h.of_ite with h | h
      · obtain ⟨_, -, h⟩ := h.of_bind
        exact h
      · exact h
    · exact h
  rw [← hpure.of_pure]
  cases g.samplesDir <;> rfl

omit hnames in
/-- A sample line neither ticks nor sleeps. -/
theorem not_clock_of_sampleLine (env : Env) {stmt : Stmt} {line : SampleLine}
    (h : SampleLine.of? stmt = some line) : tickOf? env stmt = none ∧ sleepOf? env stmt = none := by
  unfold SampleLine.of? at h
  split at h
  · exact ⟨rfl, rfl⟩
  · exact ⟨rfl, rfl⟩
  · cases h

/-- A loop after statements that played some slots. -/
def LoopState.after (env : Env) (s : LoopState) (body : List Stmt) (made : List Slot) : LoopState where
  gathered :=
    { samplesDir := s.gathered.samplesDir.or ((linesOf body).findSome? (SampleLine.dir? env))
      slots := s.gathered.slots ++ made }
  ticked := (body.filterMap (tickOf? env)).getLast?.or s.ticked
  beats := (body.filterMap (sleepOf? env)).getLast?.or s.beats

/-- **A statement of a loop** plays, ticks and sleeps as it says. -/
theorem after_of_loopStatement {s s' : LoopState} {stmt : Stmt}
    (h : MayGive (env.loopStatement s stmt) s') :
    ∃ made, List.Forall₂ (SampleLine.Makes stmts) (linesOf [stmt]) made ∧
      s' = s.after env [stmt] made := by
  unfold Env.loopStatement at h
  split at h
  · next line hline =>
    -- a sample line makes a slot and leaves the clock alone
    obtain ⟨⟨dir, slot⟩, hsample, h⟩ := h.of_bind
    obtain ⟨g, hadd, h⟩ := h.of_bind
    obtain ⟨hmakes, rfl⟩ := makes_of_sample hnames hsample.of_inContext
    obtain rfl := add_eq hadd
    obtain ⟨htick, hsleep⟩ := not_clock_of_sampleLine env hline
    refine ⟨[slot], ?_, ?_⟩
    · simpa [linesOf, hline] using hmakes
    · rw [← h.of_pure]
      simp [LoopState.after, linesOf, hline, htick, hsleep]
  · next hnone =>
    refine ⟨[], by simp [linesOf, hnone], ?_⟩
    split at h
    · split at h
      · next steps hsteps =>
        rw [← h.of_pure]
        simp [LoopState.after, linesOf, hnone, tickOf?, sleepOf?, hsteps]
      · exact absurd h not_mayGive_refuse
    · exact absurd h not_mayGive_refuse
    · split at h
      · obtain ⟨beats, hbeats, h⟩ := h.of_bind
        rw [← h.of_pure]
        simp [LoopState.after, linesOf, hnone, tickOf?, sleepOf?, hbeats.of_within, Except.toOption]
      · exact absurd h not_mayGive_refuse
    · next hrange hassign hsleep =>
      -- any other statement is left out
      have htick : tickOf? env stmt = none := by
        unfold tickOf?
        split
        · exact absurd rfl (hrange _ _ _ _)
        · rfl
      have hsleep : sleepOf? env stmt = none := by
        unfold sleepOf?
        split
        · exact absurd rfl (hsleep _ _ _)
        · rfl
      obtain ⟨_, -, h⟩ := h.of_bind
      rw [← h.of_pure]
      simp [LoopState.after, linesOf, hnone, htick, hsleep]

omit hnames in
theorem LoopState.after_after (env : Env) (s : LoopState) (a b : List Stmt) (made more : List Slot) :
    (s.after env a made).after env b more = s.after env (a ++ b) (made ++ more) := by
  simp [LoopState.after, linesOf, List.getLast?_append, Option.or_assoc]

/-- **The statements of a loop** play, tick and sleep as they say, one after the other. -/
theorem after_of_loop {body : List Stmt} {s s' : LoopState}
    (h : MayGive (body.foldlM env.loopStatement s) s') :
    ∃ made, List.Forall₂ (SampleLine.Makes stmts) (linesOf body) made ∧
      s' = s.after env body made := by
  induction body generalizing s with
  | nil => exact ⟨[], .nil, by rw [← h.of_pure]; simp [LoopState.after, linesOf]⟩
  | cons stmt body ih =>
    obtain ⟨between, hfirst, hrest⟩ := h.of_bind
    obtain ⟨made, hmade, rfl⟩ := after_of_loopStatement hnames hfirst
    obtain ⟨more, hmore, rfl⟩ := ih hrest
    refine ⟨made ++ more, ?_, LoopState.after_after env s [stmt] body made more⟩
    have hlines : linesOf (stmt :: body) = linesOf [stmt] ++ linesOf body :=
      List.filterMap_append (l := [stmt])
    rw [hlines]
    exact List.rel_append hmade hmore

/-- A loop's clock is what it ticked and slept last. -/
theorem after_of_liveLoop {g g' : Gathered} {l : LiveLoop} {steps : UInt32} {beats : Float}
    (h : MayGive (env.liveLoop g l) (g', steps, beats)) :
    ∃ made, List.Forall₂ (SampleLine.Makes stmts) (linesOf l.body) made ∧
      g' = (LoopState.after env ⟨g, none, none⟩ l.body made).gathered ∧
      (∃ name, (l.body.filterMap (tickOf? env)).getLast? = some (name, steps)) ∧
      (l.body.filterMap (sleepOf? env)).getLast? = some beats := by
  obtain ⟨s, hbody, h⟩ := h.of_bind
  obtain ⟨made, hmade, rfl⟩ := after_of_loop hnames hbody
  refine ⟨made, hmade, ?_⟩
  dsimp only [LoopState.after] at h ⊢
  rw [Option.or_none, Option.or_none] at h
  split at h
  · next name steps' beats' htick hsleep =>
    obtain ⟨rfl, hclock⟩ := Prod.mk.inj h.of_pure
    obtain ⟨rfl, rfl⟩ := Prod.mk.inj hclock
    exact ⟨rfl, ⟨name, htick⟩, hsleep⟩
  · exact absurd h not_mayGive_refuse
  · exact absurd h not_mayGive_refuse

/-- The clock is that of the loop. -/
def Clock.IsOf (env : Env) (c : Clock) (l : LiveLoop) : Prop :=
  (∃ name, (l.body.filterMap (tickOf? env)).getLast? = some (name, c.steps)) ∧
    (l.body.filterMap (sleepOf? env)).getLast? = some c.beats

/-- The clock after loops is the one there was before them, or that of the first. -/
def ClockAfter (env : Env) (loops : List LiveLoop) : Option Clock → Option Clock → Prop
  | some c, after => after = some c
  | none, after =>
    match loops with
    | [] => after = none
    | l :: _ => ∃ c, after = some c ∧ c.IsOf env l

/-- **The loops** play their lines one after the other, and the first one sets the clock. -/
theorem after_of_liveLoops {loops : List LiveLoop} {g g' : Gathered} {clock clock' : Option Clock}
    (h : MayGive (env.liveLoops g clock loops) (g', clock')) :
    ∃ made, List.Forall₂ (SampleLine.Makes stmts) (loops.flatMap fun l ↦ linesOf l.body) made ∧
      g' = { samplesDir := g.samplesDir.or
                ((loops.flatMap fun l ↦ linesOf l.body).findSome? (SampleLine.dir? env))
             slots := g.slots ++ made } ∧
      ClockAfter env loops clock clock' := by
  induction loops generalizing g clock with
  | nil =>
    obtain ⟨rfl, rfl⟩ := Prod.mk.inj h.of_pure
    refine ⟨[], .nil, by simp, ?_⟩
    cases clock <;> rfl
  | cons l loops ih =>
    obtain ⟨⟨between, steps, beats⟩, hloop, h⟩ := h.of_bind
    obtain ⟨made, hmade, hbetween, htick, hsleep⟩ := after_of_liveLoop hnames hloop.of_inContext
    -- the first loop sets a clock that was not set, and any other one leaves it as it is
    have hrest : ∃ c, MayGive (env.liveLoops between (some c) loops) (g', clock') ∧
        ClockAfter env (l :: loops) clock (some c) := by
      cases clock with
      | none => exact ⟨⟨l.name, steps, beats⟩, h, _, rfl, htick, hsleep⟩
      | some c =>
        refine ⟨c, ?_, rfl⟩
        dsimp only at h
        rcases h.of_ite with h | h
        · obtain ⟨_, -, h⟩ := h.of_bind
          exact h
        · exact h
    obtain ⟨c, hrest, hc⟩ := hrest
    obtain ⟨more, hmore, rfl, rfl⟩ := ih hrest
    refine ⟨made ++ more, List.rel_append hmade hmore, ?_, hc⟩
    rw [hbetween]
    simp [LoopState.after, Option.or_assoc]

end Loops

end StepSequencer.Script
