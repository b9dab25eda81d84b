import StepSequencer.Proofs.Script.Balance
import StepSequencer.Proofs.Script.Layout

/-!
# Block structure

In block layout a word that opens or closes a block begins its line (`laidOutBody_wordsFirst`), and it
still does when one `end` is gone. So a script in block layout, which is read, is not read without any
one `end` (`laidOut_parsed`): its depth would have to be zero both times.
-/

namespace StepSequencer.Script

/-! ### Words in block layout -/

mutual

/-- No token of an expression opens or closes a block. -/
theorem spelled_flat : (e : Expr) → e.HasFreeNames → ∀ t ∈ e.spelled, delta t = 0
  | .int _, _ | .float _, _ | .bool true, _ | .bool false, _ | .nil, _ | .str _, _ | .symbol _, _ =>
    List.forall_mem_singleton.mpr rfl
  | .var _, h => List.forall_mem_singleton.mpr (delta_ident h.1)
  | .unary _ operand, h => List.forall_mem_cons.mpr ⟨rfl, List.forall_mem_cons.mpr ⟨rfl,
      List.forall_mem_append.mpr ⟨spelled_flat operand h, List.forall_mem_singleton.mpr rfl⟩⟩⟩
  | .binary _ lhs rhs, h => List.forall_mem_cons.mpr ⟨rfl, List.forall_mem_append.mpr
      ⟨List.forall_mem_append.mpr ⟨spelled_flat lhs h.1,
        List.forall_mem_cons.mpr ⟨rfl, spelled_flat rhs h.2⟩⟩, List.forall_mem_singleton.mpr rfl⟩⟩
  | .call _ args, h => List.forall_mem_cons.mpr ⟨delta_ident h.1.1,
      List.forall_mem_cons.mpr ⟨rfl, spelledArguments_flat args h.2⟩⟩
  | .method receiver _ [], h => List.forall_mem_append.mpr ⟨spelled_flat receiver h.1,
      List.forall_mem_cons.mpr ⟨rfl, List.forall_mem_singleton.mpr (delta_ident h.2.1.1)⟩⟩
  | .method receiver _ (arg :: args), h => List.forall_mem_append.mpr ⟨spelled_flat receiver h.1,
      List.forall_mem_cons.mpr ⟨rfl, List.forall_mem_cons.mpr ⟨delta_ident h.2.1.1,
        List.forall_mem_cons.mpr ⟨rfl, spelledArguments_flat (arg :: args) h.2.2⟩⟩⟩⟩
  | .index receiver key, h => List.forall_mem_append.mpr ⟨spelled_flat receiver h.1,
      List.forall_mem_cons.mpr ⟨rfl, List.forall_mem_append.mpr
        ⟨spelled_flat key h.2, List.forall_mem_singleton.mpr rfl⟩⟩⟩

/-- No token of arguments opens or closes a block. -/
theorem spelledArguments_flat : (args : List Expr) → Expr.HaveFreeNames args →
    ∀ t ∈ Expr.spelledArguments args, delta t = 0
  | [], _ => List.forall_mem_singleton.mpr rfl
  | [arg], h => List.forall_mem_append.mpr ⟨spelled_flat arg h.1, List.forall_mem_singleton.mpr rfl⟩
  | arg :: next :: args, h => List.forall_mem_append.mpr ⟨spelled_flat arg h.1,
      List.forall_mem_cons.mpr ⟨rfl, spelledArguments_flat (next :: args) h.2⟩⟩

end

/-- No token of options opens or closes a block. -/
theorem spelledOptions_flat : (options : List (String × Expr)) →
    (∀ o ∈ options, o.2.HasFreeNames) → ∀ t ∈ spelledOptions options, delta t = 0
  | [], _ => List.forall_mem_nil _
  | [(_, e)], h => List.forall_mem_cons.mpr ⟨rfl, spelled_flat e (h _ List.mem_cons_self)⟩
  | (_, e) :: next :: options, h => List.forall_mem_cons.mpr ⟨rfl, List.forall_mem_append.mpr
      ⟨spelled_flat e (h _ List.mem_cons_self), List.forall_mem_cons.mpr
        ⟨rfl, spelledOptions_flat (next :: options) fun o ho ↦ h o (List.mem_cons_of_mem _ ho)⟩⟩⟩

/-- No token of arguments and options opens or closes a block. -/
theorem spelledParts_flat : (args : List Expr) → (options : List (String × Expr)) →
    Expr.HaveFreeNames args → (∀ o ∈ options, o.2.HasFreeNames) →
    ∀ t ∈ spelledParts args options, delta t = 0
  | [], options, _, hoptions => spelledOptions_flat options hoptions
  | [arg], [], hargs, _ => spelled_flat arg hargs.1
  | [arg], o :: options, hargs, hoptions => List.forall_mem_append.mpr ⟨spelled_flat arg hargs.1,
      List.forall_mem_cons.mpr ⟨rfl, spelledParts_flat [] (o :: options) trivial hoptions⟩⟩
  | arg :: next :: args, options, hargs, hoptions =>
    List.forall_mem_append.mpr ⟨spelled_flat arg hargs.1, List.forall_mem_cons.mpr
      ⟨rfl, spelledParts_flat (next :: args) options hargs.2 hoptions⟩⟩

/-- No token of a parameter opens or closes a block. -/
theorem parameterToks_flat {param : Option String} (h : ∀ name ∈ param, IsFree name) :
    ∀ t ∈ parameterToks param, delta t = 0 := by
  rcases param with - | param
  · exact List.forall_mem_nil _
  · exact List.forall_mem_cons.mpr ⟨rfl, List.forall_mem_cons.mpr
      ⟨delta_ident (h param rfl).1, List.forall_mem_singleton.mpr rfl⟩⟩

/-- A line, before other lines. -/
theorem wordsFirst_line (toks : List Tok) {cs : List Tok} (h : ∀ t ∈ toks.tail, delta t = 0)
    (hcs : WordsFirst cs) : WordsFirst (toks ++ .newline :: cs) := by
  have hnewline : WordsFirst (.newline :: cs) := List.isChain_cons.mpr ⟨fun _ _ ↦ .inl rfl, hcs⟩
  rcases toks with - | ⟨t, toks⟩
  · exact hnewline
  induction toks generalizing t with
  | nil => exact List.isChain_cons_cons.mpr ⟨.inr rfl, hnewline⟩
  | cons u toks ih =>
    exact List.isChain_cons_cons.mpr ⟨.inr (h u List.mem_cons_self),
      ih u fun v hv ↦ h v (List.mem_cons_of_mem u hv)⟩

/-- The closing word begins its line, with a last branch before it or without. -/
theorem wordsFirst_lastBranch {toks cs : List Tok}
    (htoks : ∀ cs, WordsFirst cs → WordsFirst (toks ++ cs)) (hcs : WordsFirst cs) :
    WordsFirst (lastBranch toks ++ .newline :: cs) := by
  have hend : WordsFirst (.ident "end" :: .newline :: cs) :=
    wordsFirst_line [.ident "end"] (List.forall_mem_nil _) hcs
  rcases toks with - | ⟨t, toks⟩
  · exact hend
  · have hbody := htoks _ hend
    have hwhole : WordsFirst (.ident "else" :: .newline :: (t :: toks ++ _)) :=
      wordsFirst_line [.ident "else"] (List.forall_mem_nil _) hbody
    simpa [lastBranch] using hwhole

mutual

/-- In block layout, words that open or close a block begin their lines. -/
theorem Stmt.laidOut_wordsFirst : (s : Stmt) → s.IsPlain → ∀ {cs : List Tok}, WordsFirst cs →
    WordsFirst (s.laidOut ++ .newline :: cs)
  | .assign _ _ value, h, _, hcs =>
    wordsFirst_line _ (List.forall_mem_cons.mpr ⟨rfl, spelled_flat value h.2⟩) hcs
  | .command _ _ args options, ⟨_, hargs, hoptions, _⟩, _, hcs =>
    wordsFirst_line _ (spelledParts_flat args options hargs hoptions) hcs
  | .define _ name param body, h, cs, hcs => by
    have hflat : ∀ t ∈ Tok.symbol name :: .ident "do" :: parameterToks param, delta t = 0 :=
      List.forall_mem_cons.mpr ⟨rfl, List.forall_mem_cons.mpr ⟨rfl, parameterToks_flat h.1⟩⟩
    have hwhole := wordsFirst_line (.ident "define" :: _) hflat
      (laidOutBody_wordsFirst body h.2 (wordsFirst_line [.ident "end"] (List.forall_mem_nil _) hcs))
    simpa [Stmt.laidOut] using hwhole
  | .liveLoop _ name body, h, cs, hcs => by
    have hflat : ∀ t ∈ [Tok.symbol name, .ident "do"], delta t = 0 :=
      List.forall_mem_cons.mpr ⟨rfl, List.forall_mem_singleton.mpr rfl⟩
    have hwhole := wordsFirst_line (.ident "live_loop" :: _) hflat
      (laidOutBody_wordsFirst body h (wordsFirst_line [.ident "end"] (List.forall_mem_nil _) hcs))
    simpa [Stmt.laidOut] using hwhole
  | .cond _ arms otherwise, ⟨_, harms, hotherwise⟩, cs, hcs => by
    have hlast := wordsFirst_lastBranch (fun cs ↦ laidOutBody_wordsFirst otherwise hotherwise) hcs
    have hwhole := laidOutArms_wordsFirst "if" arms harms hlast
    rwa [Stmt.laidOut, List.append_assoc]
  | .ret _ none, _, _, hcs => wordsFirst_line [.ident "return"] (List.forall_mem_nil _) hcs
  | .ret _ (some value), h, _, hcs => wordsFirst_line _ (spelled_flat value (h value rfl)) hcs
  | .expr _ value, h, _, hcs =>
    wordsFirst_line _ (fun t ht ↦ spelled_flat value h t (List.mem_of_mem_tail ht)) hcs

/-- In the layout of a body, words that open or close a block begin their lines. -/
theorem laidOutBody_wordsFirst : (ss : List Stmt) → IsPlainBody ss → ∀ {cs : List Tok},
    WordsFirst cs → WordsFirst (laidOutBody ss ++ cs)
  | [], _, _, hcs => hcs
  | s :: ss, h, cs, hcs => by
    have hwhole := s.laidOut_wordsFirst h.1 (laidOutBody_wordsFirst ss h.2 hcs)
    rwa [laidOutBody, List.append_assoc, List.cons_append]

/-- In the layout of branches, words that open or close a block begin their lines. -/
theorem laidOutArms_wordsFirst (word : String) : (arms : List (Expr × List Stmt)) →
    ArePlainArms arms → ∀ {cs : List Tok}, WordsFirst cs →
    WordsFirst (laidOutArms word arms ++ cs)
  | [], _, _, hcs => hcs
  | (e, body) :: arms, ⟨he, hbody, harms⟩, cs, hcs => by
    have hwhole := wordsFirst_line (.ident word :: e.spelled) (spelled_flat e he)
      (laidOutBody_wordsFirst body hbody (laidOutArms_wordsFirst "elsif" arms harms hcs))
    simpa [laidOutArms] using hwhole

end

/-! ### Scripts in block layout -/

/-- **Block structure is recovered exactly.** Statements in block layout are read as themselves, up
to their lines. And they are not read any more when any one `end` is missing. -/
theorem laidOut_parsed {ss : List Stmt} (h : IsPlainBody ss) :
    (∀ ts : List Token, ts.map (·.tok) = laidOutBody ss →
      ∃ ss', parseTokens ts = .ok ss' ∧ unlinedBody ss' = unlinedBody ss) ∧
    (∀ (as bs : List Tok) (ts : List Token), laidOutBody ss = as ++ .ident "end" :: bs →
      ts.map (·.tok) = as ++ bs → ∃ e, parseTokens ts = .error e) := by
  have hread (ts : List Token) (hts : ts.map (·.tok) = laidOutBody ss) :
      ∃ ss', parseTokens ts = .ok ss' ∧ unlinedBody ss' = unlinedBody ss := by
    obtain ⟨ss', hsame, hparse⟩ := (laidOutBody_reads ss h).whole hts
    exact ⟨ss', hparse, hsame⟩
  have hwords : WordsFirst (laidOutBody ss) := by
    have hnil := laidOutBody_wordsFirst ss h List.IsChain.nil
    rwa [List.append_nil] at hnil
  refine ⟨hread, fun as bs ts hss hts ↦ ?_⟩
  -- the depth of the whole is zero, since it is read
  have hdepth : depth (laidOutBody ss) = 0 := by
    have hmap : ((laidOutBody ss).map (⟨1, ·⟩) : List Token).map (·.tok) = laidOutBody ss := by
      rw [List.map_map]
      exact List.map_id _
    obtain ⟨ss', hparse, -⟩ := hread _ hmap
    have hdepth := depth_of_parseTokens (by rwa [hmap]) hparse
    rwa [hmap] at hdepth
  rcases hparse : parseTokens ts with e | ss'
  · exact ⟨e, rfl⟩
  · have hshort := depth_of_parseTokens (hts ▸ (hss ▸ hwords).delete (by rintro ⟨⟩)) hparse
    rw [hts, depth_append] at hshort
    rw [hss, depth_append, depth_cons] at hdepth
    have hend : delta (.ident "end") = -1 := rfl
    omega

/-- A definition with three branches and a loop, read on one line, and without its last word. -/
theorem laidOut_parsed_branches :
    let ss : List Stmt := [
      .define 1 "beat" (some "x") [
        .cond 2 [(.binary .eq (.var "x") (.int 0), [.ret 3 (some (.bool true))]), (.var "x", [])]
          [.expr 6 .nil]],
      .liveLoop 9 "drums" [.command 10 "sleep" [.int 1] [("late", .float 1)]]]
    let ts (toks : List Tok) : List Token := toks.map (⟨1, ·⟩)
    IsPlainBody ss ∧
      (∃ ss', parseTokens (ts (laidOutBody ss)) = .ok ss' ∧ unlinedBody ss' = unlinedBody ss) ∧
      ∃ e, parseTokens (ts ((laidOutBody ss).dropLast.dropLast ++ [.newline])) = .error e := by
  intro ss ts
  have hplain : IsPlainBody ss := by
    simp +decide [ss, IsPlainBody, Stmt.IsPlain, ArePlainArms, Expr.HasFreeNames,
      Expr.HaveFreeNames]
  have hts (toks : List Tok) : (ts toks).map (·.tok) = toks := by
    rw [List.map_map]
    exact List.map_id _
  obtain ⟨hread, hmissing⟩ := laidOut_parsed hplain
  exact ⟨hplain, hread _ (hts _), hmissing _ [.newline] _ rfl (hts _)⟩

end StepSequencer.Script
