import StepSequencer.Proofs.Script.Progress
import StepSequencer.Script.Reading

/-!
# Turns of the parsers' loops

Where a script may repeat something, its parser goes round in a loop: over the operators of a level,
the suffixes of an operand, the arguments of a call, the statements of a block and the branches of a
condition. A loop is a turn, and then itself again, with what the turn has added, if the turn goes
on; and a turn that goes on takes a token (`IsLoopOf`). So no loop takes more turns than there are
tokens, and one to leave it (`IsLoopOf.runTurns_eq`).

The turns here carry what was read so far and add to its end. The parsers put what they read before
what they go on to read, which comes to the same.
-/

namespace StepSequencer.Script

open Attempts

variable {lastLine : Nat} {ts : List Token}

/-! ### Some tokens were taken -/

namespace Taken

variable {mid rest : List Token} {q : List Tok → Prop}

theorem single (t : Token) : Taken (t :: ts) ts (· ≠ []) := ⟨[t], rfl, List.cons_ne_nil _ _⟩

theorem then_any (h₁ : Taken ts mid (· ≠ [])) (h₂ : Taken mid rest q) : Taken ts rest (· ≠ []) :=
  h₁.append h₂ fun _ _ hne _ ↦ List.append_ne_nil_of_left_ne_nil hne _

theorem then_some (h₁ : Taken ts mid q) (h₂ : Taken mid rest (· ≠ [])) : Taken ts rest (· ≠ []) :=
  h₁.append h₂ fun _ _ _ hne ↦ List.append_ne_nil_of_right_ne_nil _ hne

/-- Where something is taken, fewer tokens are left. -/
theorem length_lt (h : Taken ts rest (· ≠ [])) : rest.length < ts.length := by
  obtain ⟨pre, rfl, hne⟩ := h
  have hpos := List.length_pos_iff.mpr hne
  rw [List.length_map] at hpos
  rw [List.length_append]
  omega

end Taken

/-! ### Loops -/

section Loops

variable {σ α : Type}

/-- How a turn of a loop ends. -/
inductive Turn (σ α : Type) where
  /-- The loop is left, with its result and the tokens after it. -/
  | leaves (result : α) (rest : List Token)
  /-- The loop goes on, with what was read so far and the tokens left. -/
  | goesOn (sofar : σ) (rest : List Token)

/-- What comes of a turn, where `next` goes on. -/
def Turn.andThen (next : σ → List Token → Attempt (α × List Token)) :
    Turn σ α → Attempt (α × List Token)
  | .leaves result rest => .ok (result, rest)
  | .goesOn sofar rest => next sofar rest

/-- The parser goes round in a loop, and each turn that goes on takes a token. -/
structure IsLoopOf (turn : σ → List Token → Attempt (Turn σ α))
    (parser : σ → List Token → Attempt (α × List Token)) : Prop where
  eq_turn : ∀ sofar ts, parser sofar ts = turn sofar ts >>= Turn.andThen parser
  takes : ∀ {sofar ts sofar' rest}, turn sofar ts = .ok (.goesOn sofar' rest) →
    Taken ts rest (· ≠ [])

/-- A loop that is broken off after a number of turns. -/
def runTurns (turn : σ → List Token → Attempt (Turn σ α)) :
    Nat → σ → List Token → Attempt (Option (α × List Token))
  | 0, _, _ => .ok none
  | n + 1, sofar, ts => do
    match ← turn sofar ts with
    | .leaves result rest => .ok (some (result, rest))
    | .goesOn sofar rest => runTurns turn n sofar rest

/-- **A loop ends**: it is never broken off if it may take a turn more than there are tokens. -/
theorem IsLoopOf.runTurns_eq {turn : σ → List Token → Attempt (Turn σ α)}
    {parser : σ → List Token → Attempt (α × List Token)} (h : IsLoopOf turn parser) {n : Nat}
    {sofar : σ} {ts : List Token} (hn : ts.length < n) :
    runTurns turn n sofar ts = (parser sofar ts).map some := by
  induction n generalizing sofar ts with
  | zero => cases hn
  | succ n ih =>
    rw [runTurns, h.eq_turn]
    rcases hturn : turn sofar ts with e | ⟨result, rest⟩ | ⟨sofar', rest⟩
    · rfl
    · rfl
    · exact ih (Nat.lt_of_lt_of_le (h.takes hturn).length_lt (Nat.lt_succ_iff.mp hn))

end Loops

/-! ### Views -/

section Views

variable {m n : Nat} {α β γ δ : Type}

/-- The view of two attempts goes on from the first. -/
theorem view_bind {x : Attempt (Parsed n α)} {f : Parsed n α → Attempt (Parsed m β)} :
    view (x >>= f) = x >>= fun p ↦ view (f p) := by
  rcases x with e | p <;> rfl

/-- Going on from a view is going on from the attempt. -/
theorem bind_view {x : Attempt (Parsed n α)} {f : α × List Token → Attempt γ} :
    view x >>= f = x >>= fun p ↦ f p.pair := by
  rcases x with e | p <;> rfl

/-- Two ways to go on after the same parser come to the same if they do so after each result. -/
theorem view_bind_congr {x : Attempt (Parsed n α)} {f : Parsed n α → Attempt (Parsed m β)}
    {g : β × List Token → Attempt γ} {k : α × List Token → Attempt δ} {l : δ → Attempt γ}
    (h : ∀ value rest hshorter, view (f ⟨value, rest, hshorter⟩) >>= g = k (value, rest) >>= l) :
    view (x >>= f) >>= g = (view x >>= k) >>= l := by
  rw [view_bind, bind_view, bind_assoc, bind_assoc]
  exact bind_congr fun p ↦ h p.value p.rest p.shorter

/-- A weaker bound makes no difference to the view. -/
theorem view_bind_weaken {x : Attempt (Parsed m α)} {h : m ≤ n} :
    view (x >>= fun p ↦ .ok (p.weaken h)) = view x := by
  rcases x with e | p <;> rfl

/-- A result that is changed before it is handed on may as well be changed by what goes on with it.
-/
theorem view_bind_map_bind {x : Attempt (Parsed m α)} {f : α → β} {h : m ≤ n}
    {g : β × List Token → Attempt γ} {k : α × List Token → Attempt γ}
    (hk : ∀ a rest, g (f a, rest) = k (a, rest)) :
    view (x >>= fun p ↦ .ok ((p.map f).weaken h)) >>= g = view x >>= k := by
  rcases x with e | p
  · rfl
  · exact hk p.value p.rest

theorem LeavesEnd.taken {x : Attempt (Parsed n α)} (h : LeavesEnd ts x) {value : α}
    {rest : List Token} (hx : view x = .ok (value, rest)) : Taken ts rest fun _ ↦ True := by
  obtain ⟨hshorter, hx⟩ := view_eq_ok_iff.mp hx
  obtain ⟨pre, hpre⟩ := h _ hx
  exact ⟨pre, hpre.symm, trivial⟩

/-- Where fewer tokens are left, some were taken. -/
theorem LeavesEnd.taken_some {x : Attempt (Parsed ts.length α)} (h : LeavesEnd ts x) {value : α}
    {rest : List Token} (hx : view x = .ok (value, rest)) : Taken ts rest (· ≠ []) := by
  obtain ⟨hshorter, -⟩ := view_eq_ok_iff.mp hx
  obtain ⟨pre, hpre, -⟩ := h.taken hx
  refine ⟨pre, hpre, fun hnil ↦ ?_⟩
  rw [List.map_eq_nil_iff.mp hnil, List.nil_append] at hpre
  exact absurd (congrArg List.length hpre) (Nat.ne_of_gt hshorter)

end Views

/-! ### Operators and suffixes -/

/-- An operator of the level with its right operand. -/
def operatorTurn (lastLine : Nat) (level : List BinaryOp) (tighter : List (List BinaryOp))
    (lhs : Expr) (ts : List Token) : Attempt (Turn Expr Expr) :=
  match ts with
  | [] => .ok (.leaves lhs [])
  | t :: ts =>
    match levelOp? level t.tok with
    | none => .ok (.leaves lhs (t :: ts))
    | some op => do
      let (rhs, rest) ← view (binaryExpr lastLine tighter ts)
      .ok (.goesOn (.binary op lhs rhs) rest)

/-- The operators of a level are read in a loop. -/
theorem operatorTurn_isLoop (level : List BinaryOp) (tighter : List (List BinaryOp)) :
    IsLoopOf (operatorTurn lastLine level tighter)
      fun lhs ts ↦ view (binaryRest lastLine level tighter lhs ts) where
  eq_turn lhs ts := by
    unfold operatorTurn
    split
    · exact view_binaryRest_stop rfl
    · next t ts =>
      split
      · next hop => exact view_binaryRest_stop hop
      · next op hop =>
        rw [view_binaryRest_cons hop, bind_assoc]
        rfl
  takes {lhs ts sofar rest} h := by
    unfold operatorTurn at h
    split at h
    · cases h
    · next t ts =>
      split at h
      · cases h
      · obtain ⟨⟨rhs, rest⟩, hrhs, h⟩ := bind_eq_ok_iff.mp h
        obtain ⟨rfl, rfl⟩ := Turn.goesOn.inj (Except.ok.inj h)
        exact (Taken.single t).then_any ((binaryExpr_leavesEnd tighter).taken hrhs)

/-- A method call or a lookup. -/
def suffixTurn (lastLine : Nat) (receiver : Expr) (ts : List Token) : Attempt (Turn Expr Expr) :=
  match ts with
  | ⟨_, .dot⟩ :: ⟨_, .ident name⟩ :: ⟨_, .openParen⟩ :: ts => do
    let (args, rest) ← view (arguments lastLine ts)
    .ok (.goesOn (.method receiver name args) rest)
  | ⟨_, .dot⟩ :: ⟨_, .ident name⟩ :: ts => .ok (.goesOn (.method receiver name []) ts)
  | ⟨_, .dot⟩ :: ts => .error (.expected (lineAt lastLine (ts.drop 1)) .methodName (next? ts))
  | ⟨_, .openBracket⟩ :: ts => do
    let (key, rest) ← view (binaryExpr lastLine levels ts)
    match rest with
    | ⟨_, .closeBracket⟩ :: rest => .ok (.goesOn (.index receiver key) rest)
    | rest => .error (.expected (lineAt lastLine rest) (.mark "]") (next? rest))
  | ts => .ok (.leaves receiver ts)

/-- What is applied to an operand is read in a loop. -/
theorem suffixTurn_isLoop :
    IsLoopOf (suffixTurn lastLine) fun receiver ts ↦ view (suffixes lastLine receiver ts) where
  eq_turn receiver ts := by
    unfold suffixTurn
    split
    · -- a call with arguments
      rw [view_suffixes_call, bind_assoc]
      rfl
    · next ts hcall =>
      -- a method without any
      rw [suffixes]
      · exact view_bind_weaken
      · exact hcall
    · next hcall hmethod =>
      -- a dot without a name
      rw [suffixes]
      · rfl
      · exact hcall
      · exact hmethod
    · next ts =>
      -- a lookup, which must close
      rw [suffixes, view_bind, bind_view, bind_assoc]
      refine bind_congr fun parsed ↦ ?_
      obtain ⟨key, rest, hshorter⟩ := parsed
      dsimp only [Parsed.pair]
      split
      · exact view_bind_weaken
      · next hclose =>
        split
        · exact (hclose _ _ rfl).elim
        · rfl
    · next hcall hmethod hdot hindex =>
      rw [suffixes]
      · rfl
      · exact hcall
      · exact hmethod
      · exact hdot
      · exact hindex
  takes {receiver ts sofar rest} h := by
    unfold suffixTurn at h
    split at h
    · next ts =>
      obtain ⟨⟨args, rest⟩, hargs, h⟩ := bind_eq_ok_iff.mp h
      obtain ⟨rfl, rfl⟩ := Turn.goesOn.inj (Except.ok.inj h)
      exact (((Taken.single _).then_any (.single _)).then_any (.single _)).then_any
        (arguments_leavesEnd.taken hargs)
    · next ts _ =>
      obtain ⟨rfl, rfl⟩ := Turn.goesOn.inj (Except.ok.inj h)
      exact (Taken.single _).then_any (.single _)
    · cases h
    · next ts =>
      obtain ⟨⟨key, rest'⟩, hkey, h⟩ := bind_eq_ok_iff.mp h
      dsimp only at h
      split at h
      · next line rest' =>
        obtain ⟨rfl, rfl⟩ := Turn.goesOn.inj (Except.ok.inj h)
        have htaken := ((binaryExpr_leavesEnd levels).taken hkey).then_some (.single _)
        exact (Taken.single _).then_any htaken
      · cases h
    · cases h

/-! ### Arguments -/

/-- An argument and the mark after it. -/
def argumentTurn (lastLine : Nat) (sofar : List Expr) (ts : List Token) :
    Attempt (Turn (List Expr) (List Expr)) := do
  let (arg, rest) ← view (binaryExpr lastLine levels ts)
  match rest with
  | ⟨_, .comma⟩ :: rest => .ok (.goesOn (sofar ++ [arg]) rest)
  | ⟨_, .closeParen⟩ :: rest => .ok (.leaves (sofar ++ [arg]) rest)
  | rest => .error (.expected (lineAt lastLine (rest.drop 1)) .commaOrClose (next? rest))

/-- The arguments after those that were read so far. -/
def argumentsAfter (lastLine : Nat) (sofar : List Expr) (ts : List Token) :
    Attempt (List Expr × List Token) :=
  view (someArguments lastLine ts) >>= fun (args, rest) ↦ .ok (sofar ++ args, rest)

/-- Arguments are read in a loop. -/
theorem argumentTurn_isLoop : IsLoopOf (argumentTurn lastLine) (argumentsAfter lastLine) where
  eq_turn sofar ts := by
    rw [argumentsAfter, argumentTurn, someArguments]
    refine view_bind_congr fun arg rest hshorter ↦ ?_
    dsimp only
    split
    · next line rest =>
      show _ = argumentsAfter lastLine (sofar ++ [arg]) rest
      refine view_bind_map_bind fun args rest ↦ ?_
      exact congrArg (fun args ↦ Except.ok (args, rest)) (List.append_cons sofar arg args)
    · rfl
    · next hcomma hclose =>
      split
      · exact (hcomma _ _ rfl).elim
      · exact (hclose _ _ rfl).elim
      · rfl
  takes {sofar ts sofar' rest} h := by
    obtain ⟨⟨arg, rest'⟩, harg, h⟩ := bind_eq_ok_iff.mp h
    dsimp only at h
    split at h
    · obtain ⟨rfl, rfl⟩ := Turn.goesOn.inj (Except.ok.inj h)
      exact ((binaryExpr_leavesEnd levels).taken harg).then_some (.single _)
    · cases h
    · cases h

/-- The arguments and the options of a call without parentheses. -/
abbrev CommandArguments := List Expr × List (String × Expr)

/-- A comma goes on, and anything else ends the arguments. -/
def atComma (sofar : CommandArguments) : List Token → Turn CommandArguments CommandArguments
  | ⟨_, .comma⟩ :: rest => .goesOn sofar rest
  | rest => .leaves sofar rest

/-- An argument or an option, and the comma after it. -/
def commandTurn (lastLine : Nat) (sofar : CommandArguments) (ts : List Token) :
    Attempt (Turn CommandArguments CommandArguments) :=
  match ts with
  | ⟨_, .label key⟩ :: ts => do
    let (value, rest) ← view (expression lastLine ts)
    .ok (atComma (sofar.1, sofar.2 ++ [(key, value)]) rest)
  | ts =>
    if sofar.2.isEmpty then do
      let (arg, rest) ← view (expression lastLine ts)
      .ok (atComma (sofar.1 ++ [arg], sofar.2) rest)
    else .error (.positionalAfterOptions (lineAt lastLine ts))

/-- The arguments and options after those that were read so far. -/
def commandArgumentsAfter (lastLine : Nat) (sofar : CommandArguments) (ts : List Token) :
    Attempt (CommandArguments × List Token) :=
  view (commandArguments lastLine (!sofar.2.isEmpty) ts) >>= fun (more, rest) ↦
    .ok ((sofar.1 ++ more.1, sofar.2 ++ more.2), rest)

/-- Without a comma the loop ends. -/
theorem andThen_atComma {sofar : CommandArguments} {rest : List Token}
    {next : CommandArguments → List Token → Attempt (CommandArguments × List Token)}
    (h : ∀ line rest', rest = ⟨line, .comma⟩ :: rest' → False) :
    Turn.andThen next (atComma sofar rest) = .ok (sofar, rest) := by
  rw [atComma]
  · rfl
  · exact h

/-- A turn that goes on at a comma takes the comma too. -/
theorem takes_of_atComma {sofar sofar' : CommandArguments} {mid rest : List Token}
    (h : atComma sofar mid = .goesOn sofar' rest) (hmid : Taken ts mid (· ≠ [])) :
    Taken ts rest (· ≠ []) := by
  unfold atComma at h
  split at h
  · obtain ⟨-, rfl⟩ := Turn.goesOn.inj h
    exact hmid.then_some (.single _)
  · cases h

/-- The arguments of a call without parentheses are read in a loop. -/
theorem commandTurn_isLoop : IsLoopOf (commandTurn lastLine) (commandArgumentsAfter lastLine) where
  eq_turn sofar ts := by
    rw [commandArgumentsAfter, commandTurn.eq_def]
    obtain ⟨args, options⟩ := sofar
    split
    · next line key ts =>
      -- an option, after which only options come
      rw [commandArguments]
      refine view_bind_congr fun value rest hshorter ↦ ?_
      dsimp only
      split
      · next comma rest =>
        show _ = commandArgumentsAfter lastLine (args, options ++ [(key, value)]) rest
        have hnamed : (!(options ++ [(key, value)]).isEmpty) = true := by simp
        rw [commandArgumentsAfter, hnamed]
        refine view_bind_map_bind fun more rest ↦ ?_
        exact congrArg (fun options ↦ Except.ok ((args ++ more.1, options), rest))
          (List.append_cons options (key, value) more.2)
      · next hcomma =>
        refine Eq.trans ?_ (andThen_atComma hcomma).symm
        show Except.ok ((args ++ [], options ++ [(key, value)]), rest) = _
        rw [List.append_nil]
    · next hlabel =>
      rw [commandArguments]
      swap
      · exact hlabel
      -- an argument, unless an option came before it
      rcases options with - | ⟨option, options⟩
      · show view (expression lastLine ts >>= _) >>= _ = (view (expression lastLine ts) >>=
          fun (arg, rest) ↦ .ok (atComma (args ++ [arg], []) rest)) >>= _
        refine view_bind_congr fun arg rest hshorter ↦ ?_
        dsimp only
        split
        · next comma rest =>
          show _ = commandArgumentsAfter lastLine (args ++ [arg], []) rest
          refine view_bind_map_bind fun more rest ↦ ?_
          exact congrArg (fun args ↦ Except.ok ((args, more.2), rest))
            (List.append_cons args arg more.1)
        · next hcomma => exact (andThen_atComma hcomma).symm
      · rfl
  takes {sofar ts sofar' rest} h := by
    unfold commandTurn at h
    split at h
    · obtain ⟨⟨value, mid⟩, hvalue, h⟩ := bind_eq_ok_iff.mp h
      exact takes_of_atComma (Except.ok.inj h)
        ((Taken.single _).then_any (expression_leavesEnd.taken hvalue))
    · split at h
      · obtain ⟨⟨arg, mid⟩, harg, h⟩ := bind_eq_ok_iff.mp h
        exact takes_of_atComma (Except.ok.inj h) (expression_leavesEnd.taken_some harg)
      · cases h

/-! ### Statements and branches -/

/-- A statement ends its line, or stands before a word that closes the block. -/
def atLineEnd (lastLine : Nat) (sofar : List Stmt) (rest : List Token) :
    Attempt (Turn (List Stmt) (List Stmt)) :=
  if (next? rest).all fun tok ↦ tok.isNewline || (Closer.ofTok? tok).isSome then
    .ok (.goesOn sofar rest)
  else .error (.afterStatement (lineAt lastLine rest) (next? rest))

/-- A statement, after line breaks. -/
def statementTurn (lastLine : Nat) (sofar : List Stmt) (ts : List Token) :
    Attempt (Turn (List Stmt) (List Stmt)) :=
  match ts.dropWhile (·.tok.isNewline) with
  | [] => .ok (.leaves sofar [])
  | t :: ts =>
    if (Closer.ofTok? t.tok).isSome then .ok (.leaves sofar (t :: ts))
    else do
      let (stmt, rest) ← view (statement lastLine (t :: ts))
      atLineEnd lastLine (sofar ++ [stmt]) rest

/-- The statements after those that were read so far. -/
def blockAfter (lastLine : Nat) (sofar : List Stmt) (ts : List Token) :
    Attempt (List Stmt × List Token) :=
  view (block lastLine ts) >>= fun (stmts, rest) ↦ .ok (sofar ++ stmts, rest)

/-- Empty lines before a block make no difference. -/
theorem view_block_dropWhile :
    view (block lastLine (ts.dropWhile (·.tok.isNewline))) = view (block lastLine ts) := by
  induction ts with
  | nil => rfl
  | cons t ts ih =>
    by_cases hnewline : t.tok.isNewline = true
    · rw [List.dropWhile_cons_of_pos (p := fun t : Token ↦ t.tok.isNewline) hnewline, ih,
        block.eq_def lastLine (t :: ts)]
      dsimp only
      rw [if_pos hnewline]
      exact view_bind_weaken.symm
    · rw [List.dropWhile_cons_of_neg (p := fun t : Token ↦ t.tok.isNewline) hnewline]

/-- The statements of a block are read in a loop. -/
theorem statementTurn_isLoop : IsLoopOf (statementTurn lastLine) (blockAfter lastLine) where
  eq_turn sofar ts := by
    -- the parser skips a line break at a time, the turn all of them
    have hhead := List.head?_dropWhile_not (·.tok.isNewline) ts
    rw [blockAfter, ← view_block_dropWhile, statementTurn]
    generalize ts.dropWhile (·.tok.isNewline) = us at hhead ⊢
    rcases us with - | ⟨t, us⟩
    · rw [view_block_nil]
      show Except.ok (sofar ++ [], []) = Except.ok (sofar, [])
      rw [List.append_nil]
    · have hnewline : t.tok.isNewline = false := hhead
      dsimp only
      split
      · next hcloser =>
        have hat : (Closer.at? (t :: us)).isSome = true := hcloser
        rw [view_block_closer hat]
        show Except.ok (sofar ++ [], t :: us) = Except.ok (sofar, t :: us)
        rw [List.append_nil]
      · next hcloser =>
        rw [block.eq_def]
        dsimp only
        rw [hnewline, if_neg Bool.false_ne_true, if_neg hcloser]
        refine view_bind_congr fun stmt rest hshorter ↦ ?_
        dsimp only
        rw [atLineEnd]
        split
        · show _ = blockAfter lastLine (sofar ++ [stmt]) rest
          refine view_bind_map_bind fun stmts rest ↦ ?_
          exact congrArg (fun stmts ↦ Except.ok (stmts, rest)) (List.append_cons sofar stmt stmts)
        · rfl
  takes {sofar ts sofar' rest} h := by
    have hblank : Taken ts (ts.dropWhile (·.tok.isNewline)) fun _ ↦ True :=
      ⟨_, (List.takeWhile_append_dropWhile ..).symm, trivial⟩
    unfold statementTurn at h
    split at h
    · cases h
    · next t us hus =>
      split at h
      · cases h
      · obtain ⟨⟨stmt, rest'⟩, hstmt, h⟩ := bind_eq_ok_iff.mp h
        dsimp only at h
        rw [atLineEnd] at h
        split at h
        · obtain ⟨rfl, rfl⟩ := Turn.goesOn.inj (Except.ok.inj h)
          rw [hus] at hblank
          have htaken := ((statementsLeaveEnds lastLine).statement _).taken_some hstmt
          exact hblank.then_some htaken
        · cases h

/-- The branches of a condition, and what it does otherwise, once that was read. -/
abbrev BranchesSoFar := List (Expr × List Stmt) × Option (List Stmt)

/-- The next branch of a condition, or its end. Nothing but the end is left after the last branch.
-/
def branchTurn (lastLine ifLine : Nat) :
    BranchesSoFar → List Token → Attempt (Turn BranchesSoFar (List (Expr × List Stmt) × List Stmt))
  | (_, none), [] => .error (.ifWithoutEnd ifLine)
  | (arms, none), t :: ts =>
    match Closer.ofTok? t.tok with
    | some .finish => .ok (.leaves (arms, []) ts)
    | some .elseIf => do
      let (cond, rest) ← view (expression lastLine ts)
      let (body, rest) ← view (block lastLine rest)
      .ok (.goesOn (arms ++ [(cond, body)], none) rest)
    | some .otherwise => do
      let (body, rest) ← view (block lastLine ts)
      match rest with
      | ⟨line, .ident "end"⟩ :: rest =>
        .ok (.goesOn (arms, some body) (⟨line, .ident "end"⟩ :: rest))
      | rest => .error (.elseWithoutEnd (lineAt lastLine rest))
    | none => .error (.ifWithoutEnd ifLine)
  | (arms, some otherwise), ⟨_, .ident "end"⟩ :: ts => .ok (.leaves (arms, otherwise) ts)
  | (_, some _), _ => .error (.ifWithoutEnd ifLine)

/-- The branches after those that were read so far. -/
def branchesAfter (lastLine ifLine : Nat) :
    BranchesSoFar → List Token → Attempt ((List (Expr × List Stmt) × List Stmt) × List Token)
  | (arms, none), ts =>
    view (branches lastLine ifLine ts) >>= fun (more, rest) ↦ .ok ((arms ++ more.1, more.2), rest)
  | (arms, some otherwise), ⟨_, .ident "end"⟩ :: ts => .ok ((arms, otherwise), ts)
  | (_, some _), _ => .error (.ifWithoutEnd ifLine)

/-- The branches of a condition are read in a loop. -/
theorem branchTurn_isLoop (ifLine : Nat) :
    IsLoopOf (branchTurn lastLine ifLine) (branchesAfter lastLine ifLine) where
  eq_turn sofar ts := by
    unfold branchTurn
    split
    · rw [branchesAfter, branches]
      rfl
    · next arms t ts =>
      rw [branchesAfter, branches.eq_def]
      dsimp only
      rcases Closer.ofTok? t.tok with - | - | - | -
      · rfl
      · show Except.ok ((arms ++ [], []), ts) = Except.ok ((arms, []), ts)
        rw [List.append_nil]
      · -- `elsif`
        dsimp only
        refine view_bind_congr fun cond rest hshorter ↦ ?_
        refine view_bind_congr fun body rest hshorter ↦ ?_
        show _ = branchesAfter lastLine ifLine (arms ++ [(cond, body)], none) rest
        refine view_bind_map_bind fun more rest ↦ ?_
        exact congrArg (fun arms ↦ Except.ok ((arms, more.2), rest))
          (List.append_cons arms (cond, body) more.1)
      · -- `else`, after which the parser takes the `end` at once and the turns take it next
        dsimp only
        refine view_bind_congr fun body rest hshorter ↦ ?_
        dsimp only
        split
        · next line rest =>
          show Except.ok ((arms ++ [], body), rest) = Except.ok ((arms, body), rest)
          rw [List.append_nil]
        · next hend =>
          split
          · exact (hend _ _ rfl).elim
          · rfl
    · rfl
    · next hend =>
      rw [branchesAfter]
      · rfl
      · exact hend
  takes {sofar ts sofar' rest} h := by
    unfold branchTurn at h
    split at h
    · cases h
    · next arms t ts =>
      split at h
      · cases h
      · obtain ⟨⟨cond, mid⟩, hcond, h⟩ := bind_eq_ok_iff.mp h
        obtain ⟨⟨body, rest'⟩, hbody, h⟩ := bind_eq_ok_iff.mp h
        obtain ⟨rfl, rfl⟩ := Turn.goesOn.inj (Except.ok.inj h)
        exact ((Taken.single t).then_any (expression_leavesEnd.taken hcond)).then_any
          (((statementsLeaveEnds lastLine).block _).leavesEnd.taken hbody)
      · obtain ⟨⟨body, rest'⟩, hbody, h⟩ := bind_eq_ok_iff.mp h
        dsimp only at h
        split at h
        · obtain ⟨rfl, rfl⟩ := Turn.goesOn.inj (Except.ok.inj h)
          exact (Taken.single t).then_any
            (((statementsLeaveEnds lastLine).block _).leavesEnd.taken hbody)
        · cases h
      · cases h
    · cases h
    · cases h

/-! ### The whole parser -/

/-- The loops of the parsers, over operators, suffixes, arguments, statements and branches. -/
structure ParsersLoop (lastLine : Nat) : Prop where
  operators : ∀ level tighter, IsLoopOf (operatorTurn lastLine level tighter)
    fun lhs ts ↦ view (binaryRest lastLine level tighter lhs ts)
  suffixes : IsLoopOf (suffixTurn lastLine) fun receiver ts ↦ view (suffixes lastLine receiver ts)
  arguments : IsLoopOf (argumentTurn lastLine) (argumentsAfter lastLine)
  commandArguments : IsLoopOf (commandTurn lastLine) (commandArgumentsAfter lastLine)
  statements : IsLoopOf (statementTurn lastLine) (blockAfter lastLine)
  branches : ∀ ifLine, IsLoopOf (branchTurn lastLine ifLine) (branchesAfter lastLine ifLine)

/-- **Every loop of the parser** is one of turns that take something. -/
theorem parsersLoop (lastLine : Nat) : ParsersLoop lastLine where
  operators := operatorTurn_isLoop
  suffixes := suffixTurn_isLoop
  arguments := argumentTurn_isLoop
  commandArguments := commandTurn_isLoop
  statements := statementTurn_isLoop
  branches := branchTurn_isLoop

/-- The line of the last token. -/
def lastLineOf (ts : List Token) : Nat := (ts.getLast?.map (·.line)).getD 0

/-- A script is one block, with nothing left after it. -/
theorem parseTokens_eq_ok_iff {stmts : List Stmt} :
    parseTokens ts = .ok stmts ↔ view (block (lastLineOf ts) ts) = .ok (stmts, []) := by
  refine ⟨fun h ↦ ?_, parseTokens_of_block⟩
  rw [parseTokens] at h
  obtain ⟨p, hp, h⟩ := bind_eq_ok_iff.mp h
  obtain ⟨-, hstops⟩ := (statementsLeaveEnds _).block ts p hp
  split at h
  · cases h
  · next hnone =>
    have hrest : p.rest = [] := hstops.resolve_right (by rw [hnone]; exact Bool.false_ne_true)
    have hview : view (block (lastLineOf ts) ts) = .ok p.pair := congrArg view hp
    rw [hview, Parsed.pair, hrest, Except.ok.inj h]

/-- A text is read if it has tokens and these are read. -/
theorem parse_eq_ok_iff {text : String} {stmts : List Stmt} :
    parse text = .ok stmts ↔ ∃ ts, tokenize text = .ok ts ∧ parseTokens ts = .ok stmts := by
  simp only [parse, bind_eq_ok_iff, mapError_eq_ok_iff]

/-- **The parser makes progress and stays inside its tokens**, whatever they are. From every
position, each parser that succeeds ends at a later one, and no later than after the last token. A
block ends where it began or later: after the last token, or before a word that closes it, which is
then found there. The loops of the parsers take a token in each turn that goes on, so that of the
whole script is left after at most one turn more than there are tokens. And what is read as a script
has been taken to the last token. -/
theorem parsers_progress (lastLine : Nat) (ts : List Token) :
    (∀ pos, ParsersAdvance lastLine ts pos) ∧
    (∀ pos, pos ≤ ts.length → BlockAdvances lastLine ts pos) ∧ ParsersLoop lastLine ∧
    runTurns (statementTurn lastLine) (ts.length + 1) [] ts = (view (block lastLine ts)).map some ∧
    (∀ stmts, parseTokens ts = .ok stmts ↔ view (block (lastLineOf ts) ts) = .ok (stmts, [])) ∧
    ∀ text stmts, parse text = .ok stmts ↔ ∃ tokens, tokenize text = .ok tokens ∧
      view (block (lastLineOf tokens) tokens) = .ok (stmts, []) := by
  refine ⟨parsersAdvance lastLine ts, fun _ ↦ blockAdvances, parsersLoop lastLine, ?_,
    fun _ ↦ parseTokens_eq_ok_iff, fun _ _ ↦ ?_⟩
  · rw [statementTurn_isLoop.runTurns_eq (Nat.lt_succ_self _), blockAfter]
    rcases block lastLine ts with e | p <;> rfl
  · simp only [parse_eq_ok_iff, parseTokens_eq_ok_iff]

/-- A line and a word that closes nothing: the block ends before the word, and the script is
refused. -/
theorem parsers_progress_unbalanced :
    let ts : List Token := [⟨1, .ident "return"⟩, ⟨1, .newline⟩, ⟨2, .ident "end"⟩]
    view (block 2 ts) = .ok ([.ret 1 none], ts.drop 2) ∧ Closer.at? (ts.drop 2) = some .finish ∧
      (0 ≤ ts.length ∧ BlockAdvances 2 ts 0) ∧ ∀ stmts, parseTokens ts ≠ .ok stmts := by
  intro ts
  have hline : view (statement 2 ts) = .ok (.ret 1 none, ts.drop 1) :=
    view_statement_simple (by simp [ts, next?]) (by simp [ts, next?]) (by simp [ts, next?])
      (view_simpleStatement_bareReturn rfl) (by simp [ts, next?])
  have hblock : view (block 2 ts) = .ok ([.ret 1 none], ts.drop 2) := by
    rw [view_block_statement rfl rfl hline rfl]
    show view (block 2 (⟨1, .newline⟩ :: ts.drop 2)) >>= _ = _
    rw [view_block_newline, view_block_closer rfl]
    rfl
  obtain ⟨-, hadvances, -, -, hwhole, -⟩ := parsers_progress 2 ts
  refine ⟨hblock, rfl, ⟨Nat.zero_le _, hadvances 0 (Nat.zero_le _)⟩, fun stmts h ↦ ?_⟩
  cases hblock.symm.trans ((hwhole stmts).mp h)

end StepSequencer.Script
