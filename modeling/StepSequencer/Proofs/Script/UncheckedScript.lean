import StepSequencer.Proofs.Script.FunctionNames
import StepSequencer.Proofs.Script.SampleLines
import StepSequencer.Proofs.Script.Unchecked

/-!
# Overflows in reading and writing scripts

A script is read statement by statement, and then loop by loop. On its way are the unchecked numbers
of the function bodies and of the guards that are no calls, up to the first that cannot be read
(`uncheckedScript`). The reading aborts for the first of them that does not fit, if there is one.

Writing negates the shifts of the rules (`uncheckedShifts`). Where the negations fit, the text is that
in which they wrap (`write_eq_ite`).
-/

namespace StepSequencer.Script

open Attempts

variable {α β : Type}

/-! ### Readings -/

/-- What the reading comes to does not depend on what was noted before, and it aborts for the first of
the unchecked numbers on its way that does not fit. -/
structure Discloses (x : Reading α) (us : List Unchecked) : Prop where
  uniform : ∀ notices, (x.run.run notices).1 = result x
  reveals : Reveals (result x) us

/-- It is enough to know what the reading comes to after any notices. -/
theorem Discloses.of_run {x : Reading α} {r : Except (Halt ReadError) α} {us : List Unchecked}
    (hrun : ∀ notices, (x.run.run notices).1 = r) (hr : Reveals r us) : Discloses x us := by
  have hresult : result x = r := hrun []
  exact ⟨fun notices ↦ (hrun notices).trans hresult.symm, hresult ▸ hr⟩

theorem discloses_pure (a : α) : Discloses (pure a) [] := .of_run (fun _ ↦ rfl) (reveals_ok a)

theorem discloses_refuse (e : ReadError) : Discloses (refuse e : Reading α) [] :=
  .of_run (fun _ ↦ rfl) (reveals_refused e)

/-- A computation outside is on the way with what it has on its own. -/
theorem discloses_resume {ε : Type} {context : ε → ReadError} {x : Except (Halt ε) α}
    {us : List Unchecked} (hx : Reveals x us) : Discloses (resume context x) us := by
  have hrun (notices) :
      ((resume context x).run.run notices).1 = x.mapError (Halt.map context) := by
    rcases x <;> rfl
  exact .of_run hrun (hx.mapError context)

/-- Outside of function bodies nothing is computed without a check. -/
theorem discloses_within {ε : Type} {context : ε → ReadError} {x : Except ε α} :
    Discloses (within context x) [] := discloses_resume (reveals_mapError_refused x)

/-- A context changes the end alone. -/
theorem fst_run_inContext {context : ReadError → ReadError} {x : Reading α}
    (notices : List ReadNotice) :
    ((inContext context x).run.run notices).1 =
      (x.run.run notices).1.mapError (Halt.map context) := by
  rw [inContext, ExceptT.run_tryCatch, StateT.run_bind]
  rcases x.run.run notices with ⟨e | a, more⟩ <;> rfl

namespace Discloses

variable {x : Reading α} {us : List Unchecked}

theorem bind {f : α → Reading β} {vs : α → List Unchecked} (hx : Discloses x us)
    (hf : ∀ a, Discloses (f a) (vs a)) : Discloses (x >>= f) (us ++ following (result x) vs) := by
  have hrun (notices) : ((x >>= f).run.run notices).1 = result x >>= fun a ↦ result (f a) := by
    rw [ExceptT.run_bind, StateT.run_bind, ← hx.uniform notices]
    rcases x.run.run notices with ⟨e | a, more⟩
    · rfl
    · exact (hf a).uniform more
  exact .of_run hrun (hx.reveals.bind fun a _ ↦ (hf a).reveals)

/-- What is done with a result in the end. -/
theorem bind_ok {f : α → Reading β} (hx : Discloses x us) (hf : ∀ a, Discloses (f a) []) :
    Discloses (x >>= f) us := by
  have h := hx.bind hf
  rwa [following_nil, List.append_nil] at h

theorem inContext {context : ReadError → ReadError} (hx : Discloses x us) :
    Discloses (inContext context x) us := by
  have hrun (notices) : ((Script.inContext context x).run.run notices).1 =
      (result x).mapError (Halt.map context) := by rw [fst_run_inContext, hx.uniform notices]
  exact .of_run hrun (hx.reveals.mapError context)

theorem inContext_bind {context : ReadError → ReadError} {f : α → Reading β}
    {vs : α → List Unchecked} (hx : Discloses x us) (hf : ∀ a, Discloses (f a) (vs a)) :
    Discloses (Script.inContext context x >>= f) (us ++ following (result x) vs) := by
  have hcontext : Discloses (Script.inContext context x) us := hx.inContext
  have hbind := hcontext.bind hf
  rwa [result, fst_run_inContext, following_mapError] at hbind

end Discloses

/-- A part after a computation that notes nothing and only refuses. -/
theorem discloses_within_bind {x : Except ReadError α} {f : α → Reading β}
    {vs : α → List Unchecked} (hf : ∀ a, Discloses (f a) (vs a)) :
    Discloses (within id x >>= f) (following x vs) := by
  have hwithin : Discloses (within id x) [] := discloses_within
  have h := hwithin.bind hf
  rcases x <;> exact h

/-- A part after one that succeeds with notices alone. -/
theorem Gives.discloses {x : Reading α} {a : α} {f : α → Reading β} {us : List Unchecked}
    (hx : Gives x a) (hf : Discloses (f a) us) : Discloses (x >>= f) us := by
  have hrun (notices) : ((x >>= f).run.run notices).1 = result (f a) := by
    obtain ⟨more, hmore⟩ := hx notices
    rw [ExceptT.run_bind, StateT.run_bind, hmore]
    exact hf.uniform more
  exact .of_run hrun hf.reveals

theorem discloses_ite {p : Prop} [Decidable p] {x y : Reading α} {us : List Unchecked}
    (hx : Discloses x us) (hy : Discloses y us) : Discloses (if p then x else y) us := by
  split
  · exact hx
  · exact hy

/-- The unchecked numbers on the way of a fold. -/
def uncheckedFold (f : β → α → Reading β) (us : β → α → List Unchecked) : β → List α → List Unchecked
  | _, [] => []
  | b, a :: as => us b a ++ following (result (f b a)) fun b ↦ uncheckedFold f us b as

theorem discloses_foldlM {f : β → α → Reading β} {us : β → α → List Unchecked}
    (hf : ∀ b a, Discloses (f b a) (us b a)) (b : β) (as : List α) :
    Discloses (as.foldlM f b) (uncheckedFold f us b as) := by
  induction as generalizing b with
  | nil => exact discloses_pure b
  | cons a as ih =>
    rw [List.foldlM_cons]
    exact (hf b a).bind ih

/-! ### The top level -/

theorem discloses_assign (env : Env) (name : String) (value : Expr) :
    Discloses (env.assign name value) [] := by
  unfold Env.assign
  split
  · exact discloses_pure _
  · exact discloses_within.bind_ok fun _ ↦ discloses_within.bind_ok fun _ ↦ discloses_pure _
  · split
    · exact discloses_pure _
    · exact (gives_notice _).discloses (discloses_pure _)

theorem discloses_command (env : Env) (name : String) (args : List Expr) :
    Discloses (env.command name args) [] := by
  unfold Env.command
  split
  · exact discloses_within.bind_ok fun _ ↦ discloses_pure _
  · exact discloses_within.bind_ok fun _ ↦ discloses_pure _
  · exact (gives_notice _).discloses (discloses_pure _)

/-- The unchecked numbers on the way of a statement of the top level. -/
def uncheckedStatement : Stmt → List Unchecked
  | .define _ _ param body => Body.uncheckedBlock param body
  | _ => []

theorem discloses_statement (env : Env) (stmt : Stmt) :
    Discloses (env.statement stmt) (uncheckedStatement stmt) := by
  cases stmt with
  | define line name param body =>
    refine (discloses_resume (Body.reveals_rules.1 body)).bind_ok fun rule ↦ ?_
    exact discloses_ite (discloses_pure _) ((gives_notice _).discloses (discloses_pure _))
  | liveLoop line name body => exact discloses_pure env
  | assign line name value => exact (discloses_assign env name value).inContext
  | command line name args options => exact (discloses_command env name args).inContext
  | _ => exact (gives_notice _).discloses (discloses_pure env)

/-! ### Sample lines -/

/-- The unchecked numbers on the way of a guard. -/
def uncheckedGuard (ticked : Option Ticked) : Option Expr → List Unchecked
  | none | some (.call ..) => []
  | some e => Body.uncheckedValue (ticked.map (·.1)) e

theorem discloses_guardRule (env : Env) (sample : String) (ticked : Option Ticked)
    (guard : Option Expr) :
    Discloses (env.guardRule sample ticked guard) (uncheckedGuard ticked guard) := by
  unfold Env.guardRule
  split
  · exact discloses_pure _
  -- the rule of a call was read with its function
  · next name args =>
    refine discloses_ite ?_ ((discloses_refuse _).bind_ok fun _ ↦ ?_)
    all_goals
      dsimp only
      split
      · exact discloses_pure _
      · exact (gives_notice _).discloses (discloses_pure _)
  · next e hcall =>
    rw [uncheckedGuard] <;> try assumption
    exact (discloses_resume (Body.reveals_value e)).bind_ok fun _ ↦ discloses_pure _

/-- The unchecked numbers on the way of a sample line. -/
def Env.uncheckedSample (env : Env) (ticked : Option Ticked) (s : SampleLine) : List Unchecked :=
  following (env.choice s.args) fun _ ↦ following (env.options s.options) fun _ ↦
    uncheckedGuard ticked s.guard

theorem discloses_sample (env : Env) (ticked : Option Ticked) (s : SampleLine) :
    Discloses (env.sample ticked s) (env.uncheckedSample ticked s) := by
  refine discloses_within_bind fun choice ↦ ?_
  refine discloses_within_bind fun options ↦ ?_
  refine (gives_forM fun key _ ↦ gives_notice _).discloses ?_
  exact (discloses_guardRule env _ ticked s.guard).bind_ok fun _ ↦ discloses_pure _

/-! ### Loops -/

/-- The unchecked numbers on the way of a statement of a loop. -/
def Env.uncheckedLoopStatement (env : Env) (s : LoopState) (stmt : Stmt) : List Unchecked :=
  match SampleLine.of? stmt with
  | some sample => env.uncheckedSample s.ticked sample
  | none => []

theorem discloses_add (g : Gathered) (line : Nat) (dir : Option String) (slot : Slot) :
    Discloses (g.add line dir slot) [] := by
  unfold Gathered.add
  dsimp only
  split
  · exact discloses_ite ((gives_notice _).discloses (discloses_pure _)) (discloses_pure _)
  · exact discloses_pure _

theorem discloses_loopStatement (env : Env) (s : LoopState) (stmt : Stmt) :
    Discloses (env.loopStatement s stmt) (env.uncheckedLoopStatement s stmt) := by
  unfold Env.loopStatement Env.uncheckedLoopStatement
  generalize SampleLine.of? stmt = line
  cases line with
  | some sample =>
    have hline : Discloses (inContext (.atLine sample.line) (env.sample s.ticked sample))
        (env.uncheckedSample s.ticked sample) :=
      (discloses_sample env s.ticked sample).inContext
    exact hline.bind_ok fun (dir, slot) ↦
      (discloses_add _ _ dir slot).bind_ok fun _ ↦ discloses_pure _
  | none =>
    dsimp only
    split
    -- a tick, a sleep, or what is left out
    · split
      · exact discloses_pure _
      · exact discloses_refuse _
    · exact discloses_refuse _
    · split
      · exact discloses_within.bind_ok fun _ ↦ discloses_pure _
      · exact discloses_refuse _
    · exact (gives_notice _).discloses (discloses_pure _)

/-- The unchecked numbers on the way of a loop. -/
def Env.uncheckedLoop (env : Env) (g : Gathered) (l : LiveLoop) : List Unchecked :=
  uncheckedFold env.loopStatement env.uncheckedLoopStatement ⟨g, none, none⟩ l.body

theorem discloses_liveLoop (env : Env) (g : Gathered) (l : LiveLoop) :
    Discloses (env.liveLoop g l) (env.uncheckedLoop g l) := by
  refine (discloses_foldlM (discloses_loopStatement env) ⟨g, none, none⟩ l.body).bind_ok fun s ↦ ?_
  split
  · exact discloses_pure _
  · exact discloses_refuse _
  · exact discloses_refuse _

/-- The unchecked numbers on the way of some loops. -/
def Env.uncheckedLoops (env : Env) (g : Gathered) : List LiveLoop → List Unchecked
  | [] => []
  | l :: ls => env.uncheckedLoop g l ++ following (result (env.liveLoop g l)) fun (g, _, _) ↦
      env.uncheckedLoops g ls

theorem discloses_liveLoops (env : Env) (g : Gathered) (clock : Option Clock)
    (loops : List LiveLoop) :
    Discloses (env.liveLoops g clock loops) (env.uncheckedLoops g loops) := by
  induction loops generalizing g clock with
  | nil => exact discloses_pure _
  | cons l loops ih =>
    refine (discloses_liveLoop env g l).inContext_bind fun (g, steps, beats) ↦ ?_
    -- the clock is compared, and nothing more is computed for it
    cases clock with
    | none => exact ih g _
    | some clock => exact discloses_ite ((gives_notice _).discloses (ih g _)) (ih g _)

/-! ### Whole scripts -/

/-- The unchecked numbers on the way of a script. -/
def uncheckedScript (stmts : List Stmt) : List Unchecked :=
  uncheckedFold Env.statement (fun _ ↦ uncheckedStatement) .empty stmts ++
    following (result (stmts.foldlM Env.statement .empty)) fun env ↦
      env.uncheckedLoops ⟨none, []⟩ (playingLoops stmts)

/-- **A script** aborts for the first of its unchecked numbers that does not fit. -/
theorem discloses_trackOf (stmts : List Stmt) (name : String) :
    Discloses (trackOf stmts name) (uncheckedScript stmts) := by
  refine (discloses_foldlM (fun env stmt ↦ discloses_statement env stmt) .empty stmts).bind fun env ↦ ?_
  refine (gives_forM fun _ _ ↦ gives_notice _).discloses ?_
  refine (discloses_liveLoops env ⟨none, []⟩ none (playingLoops stmts)).bind_ok fun (g, clock) ↦ ?_
  cases clock with
  | none => exact discloses_refuse _
  | some clock =>
    exact discloses_within.bind_ok fun _ ↦ discloses_pure _

/-! ### Writing -/

/-- The unchecked numbers in writing a rule: the negations of its shifts. -/
def uncheckedShifts : Rule → List Unchecked
  | .answer _ => []
  | .test _ taken otherwise => uncheckedShifts taken ++ uncheckedShifts otherwise
  | .rebase shift rule => .negation shift :: uncheckedShifts rule

/-- The lines of a rule are those in which negations wrap, if each of them fits. -/
theorem writeRule_eq_ite (depth : Nat) (rule : Rule) : writeRule depth rule =
    if ∀ u ∈ uncheckedShifts rule, u.Fits then .ok (ruleText depth rule) else .error .negation := by
  induction rule generalizing depth with
  | answer outcome => exact (if_pos (List.forall_mem_nil _)).symm
  | test condition taken otherwise iht iho =>
    have hother : (writeRule (depth + 1) otherwise >>= fun lines ↦
        .ok (lineText depth ("if " ++ conditionText condition) ++ ruleText (depth + 1) taken ++
          lineText depth "else" ++ lines ++ lineText depth "end")) =
        if ∀ u ∈ uncheckedShifts otherwise, u.Fits then
          .ok (ruleText depth (.test condition taken otherwise))
        else .error .negation := by
      rw [iho]
      split <;> rfl
    rw [writeRule, uncheckedShifts]
    refine Eq.trans (bind_eq_ite (iht (depth + 1)) hother) ?_
    simp only [List.forall_mem_append]
  | rebase shift rule ih =>
    rw [writeRule, uncheckedShifts]
    split
    · next hshift =>
      have hnot : ¬(Unchecked.negation shift).Fits := Unchecked.neg?_eq_none_iff.mp hshift
      rw [if_neg fun h ↦ hnot (List.forall_mem_cons.mp h).1]
    · next offset hshift =>
      have hfits : (Unchecked.negation shift).Fits := Unchecked.fits_of_neg? hshift
      have hoffset : offset = -shift := by
        rw [← Int64.toInt_inj, Word.neg?_eq_some_iff.mp hshift,
          Word.toInt_neg (Unchecked.fits_negation.mp hfits)]
      -- this negation fits, so the rest decides
      simp only [List.forall_mem_cons, hfits, true_and, ih, ruleText, hoffset]
      split <;> rfl

/-- Each slot has a function, and there are no other functions. -/
theorem forall_mem_zip_functionNames {t : Track} (p : Slot → Prop) :
    (∀ x ∈ t.slots.zip (functionNames t), p x.1) ↔ ∀ s ∈ t.slots, p s := by
  have hlength : t.slots.length ≤ (functionNames t).length :=
    Nat.le_of_eq (length_namesOf t.slots).symm
  have hslots : (t.slots.zip (functionNames t)).map Prod.fst = t.slots := List.map_fst_zip hlength
  rw [← List.forall_mem_map (f := Prod.fst), hslots]

/-- **The text of a track** is that in which negations wrap, if each of them fits, and writing it aborts
the program otherwise. -/
theorem write_eq_ite (t : Track) : write t =
    if ∀ s ∈ t.slots, ∀ u ∈ uncheckedShifts s.rule, u.Fits then .ok (render t)
    else .error .negation := by
  have hfunction (x : Slot × String) : (writeRule 1 x.1.rule).map (defineText x.2) =
      if ∀ u ∈ uncheckedShifts x.1.rule, u.Fits then .ok (functionText x.2 x.1)
      else .error .negation := by
    rw [writeRule_eq_ite]
    split <;> rfl
  have hall : (∀ x ∈ t.slots.zip (functionNames t), ∀ u ∈ uncheckedShifts x.1.rule, u.Fits) ↔
      ∀ s ∈ t.slots, ∀ u ∈ uncheckedShifts s.rule, u.Fits :=
    forall_mem_zip_functionNames fun s ↦ ∀ u ∈ uncheckedShifts s.rule, u.Fits
  simp only [write, hfunction, mapM_ite, hall]
  split <;> rfl

/-- The negations of shifts other than the least word fit. -/
theorem fits_uncheckedShifts {rule : Rule} (h : rule.IsExact) : ∀ u ∈ uncheckedShifts rule, u.Fits := by
  induction rule with
  | answer outcome => exact List.forall_mem_nil _
  | test condition taken otherwise iht iho =>
    exact List.forall_mem_append.mpr ⟨iht h.2.1, iho h.2.2⟩
  | rebase shift rule ih =>
    exact List.forall_mem_cons.mpr ⟨Unchecked.fits_negation.mpr h.1, ih h.2⟩

theorem write_eq_render {t : Track} (h : ∀ s ∈ t.slots, s.rule.IsExact) : write t = .ok (render t) := by
  rw [write_eq_ite, if_pos fun s hs ↦ fits_uncheckedShifts (h s hs)]

/-! ### Overflows -/

/-- **Overflows in reading and writing.** Reading a script aborts the program with an operation exactly
if that is the operation of the first of the unchecked numbers on its way that no word holds, so it ends
in a track or a refusal exactly if words hold all of them. Writing a track gives its text if the
negations of its shifts fit, and aborts the program otherwise. -/
theorem overflow_iff_unchecked (stmts : List Stmt) (name : String) (t : Track) :
    (∀ o, ((trackOf stmts name).run.run []).1 = .error (.aborted o) ↔
      (uncheckedScript stmts).findSome? Unchecked.overflow? = some o) ∧
    ((∃ o, ((trackOf stmts name).run.run []).1 = .error (.aborted o)) ↔
      ∃ u ∈ uncheckedScript stmts, ¬u.Fits) ∧
    write t = if ∀ s ∈ t.slots, ∀ u ∈ uncheckedShifts s.rule, u.Fits then .ok (render t)
      else .error .negation := by
  have hreading (o : Overflow) : ((trackOf stmts name).run.run []).1 = .error (.aborted o) ↔
      (uncheckedScript stmts).findSome? Unchecked.overflow? = some o := by
    rw [← (discloses_trackOf stmts name).reveals, abort?_eq_some_iff, result]
  refine ⟨hreading, ?_, write_eq_ite t⟩
  simp only [hreading, ← Option.isSome_iff_exists, List.findSome?_isSome_iff,
    Unchecked.overflow?_isSome_iff]

/-- A script with one sample line and its guard. -/
def guardedBy (guard : Expr) : List Stmt :=
  [.assign 1 "n" (.call "range" [.int 0, .int 4, .int 1]),
    .liveLoop 2 "l" [.assign 3 "i" (.method (.var "n") "tick" []),
      .cond 4 [(guard, [.command 4 "sample" [.str "kit", .int 0] []])] [],
      .command 5 "sleep" [.int 1] []]]

/-- The step less 2 ^ 63. -/
def leastStep (step : String) : Expr :=
  .binary (.arith .sub) (.binary (.arith .sub) (.var step) (.int Int64.maxValue)) (.int 1)

/-- **Scripts and a track that overflow**: a remainder of constants, the successor of the greatest
offset, the negation of the least one in a property and in a reassignment, and that of the least
shift. -/
theorem overflows_unchecked :
    ((trackOf (guardedBy (.binary .eq (.var "i")
        (.binary (.arith .rem) (.unary .neg (.int Int64.maxValue)) (.int 3)))) "").run.run []).1 =
      .error (.aborted .multiplication) ∧
    ((trackOf (guardedBy (.method
        (.binary (.arith .add) (.var "i") (.int Int64.maxValue)) "odd?" [])) "").run.run []).1 =
      .error (.aborted .addition) ∧
    ((trackOf (guardedBy (.method (leastStep "i") "zero?" [])) "").run.run []).1 =
      .error (.aborted .negation) ∧
    ((trackOf [.define 1 "f" (some "x") [.assign 2 "x" (leastStep "x")]] "").run.run []).1 =
      .error (.aborted .negation) ∧
    write ⟨"loop", "kit", 60, 4, 1, [⟨0, .folder, "kick", .rebase Int64.minValue .always, .standard⟩]⟩ =
      .error .negation := by
  refine ⟨?_, ?_, ?_, ?_, ?_⟩
  all_goals with_unfolding_all rfl

end StepSequencer.Script
