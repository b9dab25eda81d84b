import StepSequencer.Proofs.Script.SampleLines
import StepSequencer.Proofs.Script.SimpleReading

/-!
# Rules of a script are reduced

A rule gets into a track as the body of a function, as a guard that is no call, or as one of the two
rules of a line without a guard and of one whose function is not defined (`IsRead`). Reading keeps
this up statement by statement, first for the functions and then for the slots (`isRead_of_trackOf`).

Each such rule is simple, and its comparisons are folded, so nothing in it is left to simplify
(`reduced_of_trackOf`).
-/

namespace StepSequencer

/-- Folding leaves the step in an expression. -/
theorem StepExpr.folded_of_usesStep {e : StepExpr} (h : e.usesStep = true) : e.folded = e :=
  if_pos h

namespace Script

open Attempts

/-! ### Comparisons that are read -/

namespace Body

variable {param : Option String} {c : Condition}

theorem keepsComparisons_isFoldedComparison :
    KeepsComparisons param Condition.IsFoldedComparison :=
  fun _ _ _ _ _ ha hb _ huses ↦ ⟨isFolded_of_stepExpr ha, isFolded_of_stepExpr hb, huses⟩

/-- A property of the shifted step is a congruence with modulus two, or a bound. -/
theorem isSimple_of_shiftedProperty? {P : CmpOp → StepExpr → StepExpr → Prop} {offset : Int64}
    {name : String} (h : shiftedProperty? offset name = .ok (some c)) : c.IsSimple P := by
  have htwo : (0 : Int64) < 2 := by decide
  unfold shiftedProperty? at h
  split at h
  · obtain rfl := Option.some.inj (Except.ok.inj h)
    exact htwo
  · obtain ⟨_, -, hc⟩ := map_eq_ok_iff.mp h
    obtain rfl := Option.some.inj hc
    exact htwo
  case h_6 => cases Except.ok.inj h
  all_goals
    obtain ⟨_, -, hc⟩ := map_eq_ok_iff.mp h
    obtain rfl := Option.some.inj hc
    trivial

/-- A property of folded arithmetic compares folded arithmetic. -/
theorem isSimple_of_property? {e : StepExpr} {name : String} (he : e.IsFolded)
    (h : property? e name = some c) : c.IsSimple Condition.IsFoldedComparison := by
  have hrest (n : Int64) : (Condition.comparison .eq (.binary .rem e (.const (.int 2)))
      (.const (.int n))).IsSimple Condition.IsFoldedComparison := by
    refine isSimple_comparison fun huses ↦ ⟨⟨he, trivial, ?_⟩, trivial, huses⟩
    -- the step is not in the constant, so it is in the remainder, which is not folded then
    exact StepExpr.folded_of_usesStep ((Bool.or_eq_true_iff.mp huses).resolve_right nofun)
  have hsign (op : CmpOp) :
      (Condition.comparison op e (.const (.int 0))).IsSimple Condition.IsFoldedComparison :=
    isSimple_comparison fun huses ↦ ⟨he, trivial, huses⟩
  unfold property? at h
  split at h
  · obtain rfl := Option.some.inj h
    exact hrest 0
  · obtain rfl := Option.some.inj h
    exact hrest 1
  case h_6 => cases h
  all_goals
    obtain rfl := Option.some.inj h
    exact hsign _

theorem keepsProperties_isFoldedComparison :
    KeepsProperties param Condition.IsFoldedComparison := by
  intro receiver name c h
  obtain ⟨t, -, h⟩ := bind_eq_ok_iff.mp h
  obtain ⟨shifted?, hshifted, h⟩ := bind_eq_ok_iff.mp h
  split at h
  · obtain rfl := Except.ok.inj h
    unfold termProperty? at hshifted
    split at hshifted
    · exact isSimple_of_shiftedProperty? hshifted
    · cases Except.ok.inj hshifted
  · obtain ⟨e, he, h⟩ := bind_eq_ok_iff.mp h
    split at h
    · next hproperty =>
      obtain rfl := Except.ok.inj h
      exact isSimple_of_property? (isFolded_of_stepExpr (arithmetic_eq_ok_iff.mp he)) hproperty
    · cases h

end Body

/-! ### Rules that are read -/

/-- The rule is read, or stands for a guard that is missing or names nothing. -/
inductive IsRead : Rule → Prop where
  | block {param : Option String} {stmts : List Stmt} {r : Rule} (h : Body.block param stmts = .ok r) :
    IsRead r
  | value {param : Option String} {e : Expr} {r : Rule} (h : Body.value param e = .ok r) : IsRead r
  | always : IsRead .always
  | never : IsRead .never

/-- **A rule that is read** is simple, and its comparisons are folded. -/
theorem IsRead.isSimple {r : Rule} (h : IsRead r) : r.IsSimple Condition.IsFoldedComparison := by
  cases h with
  | block h =>
    exact Body.isSimple_of_block Body.keepsComparisons_isFoldedComparison
      Body.keepsProperties_isFoldedComparison h
  | value h =>
    exact Body.isSimple_of_value Body.keepsComparisons_isFoldedComparison
      (.inr Body.keepsProperties_isFoldedComparison) h
  | always | never => trivial

/-! ### Functions -/

variable {env env' : Env} {stmts : List Stmt}

/-- The rules of all functions are read. -/
def Env.HasReadRules (env : Env) : Prop :=
  ∀ name r, env.functions.lookup name = some r → IsRead r

theorem hasReadRules_of_statement {stmt : Stmt} (henv : env.HasReadRules)
    (h : MayGive (env.statement stmt) env') : env'.HasReadRules := by
  intro name r hr
  rcases functions_of_statement h with ⟨_, _, _, _, rule, -, hrule, hfunctions⟩ | ⟨-, hfunctions⟩
  · rw [hfunctions, List.lookup_cons] at hr
    split at hr
    · obtain rfl := Option.some.inj hr
      exact .block hrule
    · exact henv name r hr
  · rw [hfunctions] at hr
    exact henv name r hr

theorem hasReadRules_of_statements (h : MayGive (stmts.foldlM Env.statement .empty) env) :
    env.HasReadRules := by
  exact h.foldlM_invariant (fun _ _ _ ↦ hasReadRules_of_statement) nofun

/-! ### Slots -/

/-- The rules of all slots so far are read. -/
def Gathered.HasReadRules (g : Gathered) : Prop := ∀ s ∈ g.slots, IsRead s.rule

section Loops

variable (henv : env.HasReadRules)

include henv

theorem isRead_of_guardRule {sample : String} {ticked : Option Ticked} {guard : Option Expr}
    {label : Option String} {rule : Rule}
    (h : MayGive (env.guardRule sample ticked guard) (label, rule)) : IsRead rule := by
  unfold Env.guardRule at h
  split at h
  · obtain ⟨-, rfl⟩ := Prod.mk.inj h.of_pure
    exact .always
  · next name args =>
    dsimp only at h
    rcases h.of_ite with h | h
    · split at h
      · next found hfound =>
        obtain ⟨-, rfl⟩ := Prod.mk.inj h.of_pure
        exact henv name _ hfound
      · obtain ⟨_, -, h⟩ := h.of_bind
        obtain ⟨-, rfl⟩ := Prod.mk.inj h.of_pure
        exact .never
    · obtain ⟨_, hthrow, -⟩ := h.of_bind
      exact absurd hthrow not_mayGive_refuse
  · obtain ⟨r, hr, h⟩ := h.of_bind
    obtain ⟨-, rfl⟩ := Prod.mk.inj h.of_pure
    exact .value hr.of_resume

theorem isRead_of_sample {ticked : Option Ticked} {line : SampleLine} {dir : Option String} {s : Slot}
    (h : MayGive (env.sample ticked line) (dir, s)) : IsRead s.rule := by
  obtain ⟨_, -, h⟩ := h.of_bind
  obtain ⟨_, -, h⟩ := h.of_bind
  obtain ⟨_, -, h⟩ := h.of_bind
  obtain ⟨⟨label, rule⟩, hguard, h⟩ := h.of_bind
  obtain ⟨-, rfl⟩ := Prod.mk.inj h.of_pure
  exact isRead_of_guardRule henv hguard

theorem hasReadRules_of_loopStatement {s s' : LoopState} {stmt : Stmt}
    (hs : s.gathered.HasReadRules) (h : MayGive (env.loopStatement s stmt) s') :
    s'.gathered.HasReadRules := by
  unfold Env.loopStatement at h
  split at h
  · obtain ⟨⟨dir, slot⟩, hsample, h⟩ := h.of_bind
    obtain ⟨g, hadd, h⟩ := h.of_bind
    obtain rfl := add_eq hadd
    rw [← h.of_pure]
    have hslot := isRead_of_sample henv hsample.of_inContext
    exact List.forall_mem_append.mpr ⟨hs, List.forall_mem_singleton.mpr hslot⟩
  · split at h
    · split at h
      · rwa [← h.of_pure]
      · exact absurd h not_mayGive_refuse
    · exact absurd h not_mayGive_refuse
    · split at h
      · obtain ⟨_, -, h⟩ := h.of_bind
        rwa [← h.of_pure]
      · exact absurd h not_mayGive_refuse
    · obtain ⟨_, -, h⟩ := h.of_bind
      rwa [← h.of_pure]

theorem hasReadRules_of_liveLoop {g g' : Gathered} {l : LiveLoop} {steps : UInt32} {beats : Float}
    (hg : g.HasReadRules) (h : MayGive (env.liveLoop g l) (g', steps, beats)) :
    g'.HasReadRules := by
  obtain ⟨s, hbody, h⟩ := h.of_bind
  have hs : s.gathered.HasReadRules :=
    hbody.foldlM_invariant (fun _ _ _ ↦ hasReadRules_of_loopStatement henv) hg
  split at h
  · obtain ⟨rfl, -⟩ := Prod.mk.inj h.of_pure
    exact hs
  · exact absurd h not_mayGive_refuse
  · exact absurd h not_mayGive_refuse

theorem hasReadRules_of_liveLoops {loops : List LiveLoop} {g g' : Gathered}
    {clock clock' : Option Clock} (hg : g.HasReadRules)
    (h : MayGive (env.liveLoops g clock loops) (g', clock')) : g'.HasReadRules := by
  induction loops generalizing g clock with
  | nil =>
    obtain ⟨rfl, -⟩ := Prod.mk.inj h.of_pure
    exact hg
  | cons l loops ih =>
    obtain ⟨⟨between, steps, beats⟩, hloop, h⟩ := h.of_bind
    have hbetween := hasReadRules_of_liveLoop henv hg hloop.of_inContext
    cases clock with
    | none => exact ih hbetween h
    | some c =>
      dsimp only at h
      rcases h.of_ite with h | h
      · obtain ⟨_, -, h⟩ := h.of_bind
        exact ih hbetween h
      · exact ih hbetween h

end Loops

/-- Numbering leaves the rules as they are. -/
theorem rules_numberBundled {next : Nat} {slots numbered : List Slot}
    (h : numberBundled next slots = .ok numbered) :
    numbered.map Slot.rule = slots.map Slot.rule := by
  induction slots generalizing next numbered with
  | nil =>
    obtain rfl := Except.ok.inj h
    rfl
  | cons s slots ih =>
    rw [numberBundled] at h
    split at h
    · obtain ⟨rest, hrest, h⟩ := bind_eq_ok_iff.mp h
      obtain rfl := Except.ok.inj h
      rw [List.map_cons, List.map_cons, ih hrest]
    · split at h
      · obtain ⟨rest, hrest, h⟩ := bind_eq_ok_iff.mp h
        obtain rfl := Except.ok.inj h
        rw [List.map_cons, List.map_cons, ih hrest]
      · cases h

/-- **The rules of a script** are read. -/
theorem isRead_of_trackOf {name : String} {t : Track} (h : MayGive (trackOf stmts name) t) :
    ∀ s ∈ t.slots, IsRead s.rule := by
  obtain ⟨env, henv, h⟩ := h.of_bind
  obtain ⟨_, -, h⟩ := h.of_bind
  obtain ⟨⟨g, clock⟩, hloops, h⟩ := h.of_bind
  have hnone : Gathered.HasReadRules ⟨none, []⟩ := List.forall_mem_nil _
  have hg := hasReadRules_of_liveLoops (hasReadRules_of_statements henv) hnone hloops
  cases clock with
  | none => exact absurd h not_mayGive_refuse
  | some clock =>
    obtain ⟨slots, hslots, h⟩ := h.of_bind
    rw [← h.of_pure]
    intro s hs
    have hrule : s.rule ∈ g.slots.map Slot.rule :=
      rules_numberBundled hslots.of_within ▸ List.mem_map_of_mem hs
    obtain ⟨s', hs', hsame⟩ := List.mem_map.mp hrule
    exact hsame ▸ hg s' hs'

/-- **The rules of a script are reduced.** In the rules of a track that a script gives, nothing is left
to simplify, and each of them passes its check. -/
theorem reduced_of_trackOf {name : String} {t : Track}
    (h : ((trackOf stmts name).run.run []).1 = .ok t) :
    ∀ s ∈ t.slots, (∀ c ∈ s.rule.conditions, ∀ d ∈ c.parts, d.IsReduced) ∧
      s.rule.validate = .ok () := by
  intro s hs
  have hsimple := (isRead_of_trackOf (mayGive_of_run h) s hs).isSimple
  exact ⟨Rule.isReduced_of_isSimple hsimple, Rule.validate_of_isSimple hsimple⟩

/-- A line that plays on the third step of four and on those whose square is past a hundred, and one
with a guard of its own that never holds. -/
def thirdOfFour : List Stmt :=
  [.assign 1 "n" (.call "range" [.int 0, .int 16, .int 1]),
    .define 2 "f" (some "x") [.cond 3 [(.binary .or
        (.binary .eq (.binary (.arith .rem) (.var "x") (.binary (.arith .add) (.int 1) (.int 3)))
          (.int 2))
        (.binary .or (.bool false)
          (.unary .not (.unary .not
            (.binary (.order .gt) (.binary (.arith .mul) (.var "x") (.var "x")) (.int 100))))),
      [.ret 4 (some (.int 9))])] []],
    .liveLoop 6 "l" [.assign 7 "i" (.method (.var "n") "tick" []),
      .cond 8 [(.call "f" [.var "i"], [.command 8 "sample" [.symbol "a"] []])] [],
      .cond 9 [(.method (.binary (.arith .mul) (.var "i") (.int 2)) "odd?" [],
        [.command 9 "sample" [.symbol "b"] []])] [],
      .command 10 "sleep" [.int 1] []]]

/-- Both its rules are tests, the first of a disjunction. -/
theorem reduced_of_trackOf_thirdOfFour :
    ∃ t, ((trackOf thirdOfFour "").run.run []).1 = .ok t ∧
      t.slots.map (fun s ↦ (s.rule.conditions.flatMap Condition.parts).length) = [3, 1] ∧
      ∀ s ∈ t.slots, (∀ c ∈ s.rule.conditions, ∀ d ∈ c.parts, d.IsReduced) ∧
        s.rule.validate = .ok () := by
  have hread : ((trackOf thirdOfFour "").run.run []).1.toOption.map (fun t ↦
      t.slots.map fun s ↦ (s.rule.conditions.flatMap Condition.parts).length) = some [3, 1] := by
    decide +kernel
  obtain ⟨t, ht, hcount⟩ := Option.map_eq_some_iff.mp hread
  have hrun := toOption_eq_some_iff.mp ht
  exact ⟨t, hrun, hcount, reduced_of_trackOf hrun⟩

end Script

end StepSequencer
