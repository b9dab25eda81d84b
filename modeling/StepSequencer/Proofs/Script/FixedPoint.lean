import StepSequencer.Proofs.Script.Numbering
import StepSequencer.Proofs.Script.RoundTrip
import StepSequencer.Proofs.Script.Tokens

/-!
# Rules that went through a script once

What is read of a script is normal (`Body.isNormal_of_block`), and a normal rule without floats is read
back as itself (`Rule.eq_of_block`): no step of reading applies to it any more. So a rule may change
the first time it goes through a script, and never again (`Track.readBack_stable`).

Whatever the settings of a track and whatever the numbers of a rule, a script that has tokens holds one
function for the rule and one sample line that calls it (`holding_written`). In a track that can be
written, every rule whose remainders fit is read back as some rule (`Track.exists_readBack`).
-/

namespace StepSequencer

open Script Attempts

namespace StepExpr

/-- **Folded arithmetic**, written and read, is the same. -/
theorem IsFolded.stepExpr_tree {e : StepExpr} (h : e.IsFolded) (hexact : e.IsExact) :
    Body.stepExpr (some "x") e.tree = .ok e := by
  induction e with
  | step => rfl
  | const value =>
    rcases value with n | x
    · have heval := Word.neg?_neg (show n ≠ Int64.minValue from hexact)
      rw [tree, Word.tree]
      split
      · show Except.ok (StepExpr.const (Num.neg (.int (-n)))) = _
        rw [Num.neg, heval]
      · rfl
    · cases hexact
  | neg operand ih =>
    refine (bind_eq_ok_iff.mpr ⟨operand, ih h.1 hexact, ?_⟩)
    exact congrArg Except.ok h.2
  | binary op lhs rhs ihl ihr =>
    refine bind_eq_ok_iff.mpr ⟨lhs, ihl h.1 hexact.1, ?_⟩
    refine bind_eq_ok_iff.mpr ⟨rhs, ihr h.2.1 hexact.2, ?_⟩
    exact congrArg Except.ok h.2.2

end StepExpr

namespace Condition

variable {c d : Condition} {cs ds : List Condition}

/-! ### Connectives -/

section Members

variable {k : Connective}

theorem members?_of_takes (h : k.takes c = true) : k.members? c = some [c] := by
  have hadds := k.adds_members? c
  generalize k.members? c = added at hadds ⊢
  cases hadds with
  | settling | neutral | members => cases k <;> cases h
  | itself => rfl

theorem members?_build (h : cs.all k.takes = true) : k.members? (k.build cs) = some cs := by
  unfold Connective.build
  split
  · cases k <;> rfl
  · next c => exact members?_of_takes (List.all_eq_true.mp h c (List.mem_singleton_self c))
  · cases k <;> rfl

/-- One more member. -/
theorem join_build (hds : ds.all k.takes = true) (hc : k.takes c = true) :
    k.join (k.build ds) c = k.build (ds ++ [c]) := by
  rw [Connective.join, members?_build hds, members?_of_takes hc]

theorem foldl_join (ds : List Condition) (hds : ds.all k.takes = true)
    (hcs : cs.all k.takes = true) : cs.foldl k.join (k.build ds) = k.build (ds ++ cs) := by
  induction cs generalizing ds with
  | nil => rw [List.append_nil, List.foldl_nil]
  | cons c cs ih =>
    rw [List.all_cons, Bool.and_eq_true] at hcs
    have hmore : (ds ++ [c]).all k.takes = true := by
      rw [List.all_append, hds, Bool.true_and, List.all_cons, hcs.1, List.all_nil, Bool.and_self]
    rw [List.foldl_cons, join_build hds hcs.1, ih _ hmore hcs.2, List.append_assoc,
      List.singleton_append]

theorem build_eq_condition (h : 2 ≤ cs.length) : k.build cs = k.condition cs := by
  rcases cs with - | ⟨c, - | ⟨d, cs⟩⟩
  · cases h
  · simp at h
  · rfl

/-- Members that are joined one after the other make up their connective. -/
theorem foldl_join_members (hlength : 2 ≤ (c :: cs).length) (h : (c :: cs).all k.takes = true) :
    cs.foldl k.join c = k.condition (c :: cs) := by
  have hmembers := h
  rw [List.all_cons, Bool.and_eq_true] at hmembers
  have hc : [c].all k.takes = true := by
    rw [List.all_cons, hmembers.1, List.all_nil, Bool.and_self]
  rw [← build_eq_condition hlength]
  exact foldl_join [c] hc hmembers.2

end Members

theorem negate_of_isNegatable (h : c.isNegatable = true) : c.negate = .not c := by
  unfold negate
  split
  · cases h
  · cases h
  · rfl

/-! ### Conditions -/

/-- Whatever the written condition is read as, it is the condition. -/
def ReadsSame (c : Condition) : Prop :=
  ∀ d, Body.condition (some "x") c.tree = .ok d → d = c

theorem ReadsSame.of_eq (h : Body.condition (some "x") c.tree = .ok c) : c.ReadsSame :=
  fun _ hd ↦ (Except.ok.inj (h.symm.trans hd)).symm

theorem comparison_of_usesStep {op : CmpOp} {lhs rhs : StepExpr}
    (h : (lhs.usesStep || rhs.usesStep) = true) : comparison op lhs rhs = compare op lhs rhs :=
  if_pos h

/-- A normal comparison is read as itself: no terms of it compare, and its arithmetic is folded. -/
theorem eq_of_form {op : CmpOp} {lhs rhs : StepExpr} (hlexact : lhs.IsExact) (hrexact : rhs.IsExact)
    (h : (compare op lhs rhs).IsNormal)
    (hform : Body.ComparisonForm (some "x") op lhs.tree rhs.tree d) : d = compare op lhs rhs := by
  obtain ⟨hl, hr, huses, hirreducible⟩ := h
  cases hform with
  | terms hlterm hrterm hc => cases hc.symm.trans (hirreducible _ _ hlterm hrterm)
  | arithmetic ha hb =>
    obtain rfl := Except.ok.inj (ha.symm.trans (hl.stepExpr_tree hlexact))
    obtain rfl := Except.ok.inj (hb.symm.trans (hr.stepExpr_tree hrexact))
    exact comparison_of_usesStep huses

theorem readsSame_compare {op : CmpOp} {lhs rhs : StepExpr} (hlexact : lhs.IsExact)
    (hrexact : rhs.IsExact) (h : (compare op lhs rhs).IsNormal) : (compare op lhs rhs).ReadsSame := by
  intro d hd
  cases op with
  | eq =>
    rw [tree, CmpOp.inScript, Body.condition] at hd
    cases Body.form_of_equality hd with
    | comparison hform => exact eq_of_form hlexact hrexact h hform
    | truths hboolean =>
      rw [lhs.isBoolean_tree, rhs.isBoolean_tree] at hboolean
      cases hboolean
    | literals _ _ hplain =>
      -- both sides are arithmetic
      rcases hplain with hplain | hplain
      · exact absurd (h.1.stepExpr_tree hlexact) (hplain _)
      · exact absurd (h.2.1.stepExpr_tree hrexact) (hplain _)
  | order op =>
    rw [tree, CmpOp.inScript, Body.condition] at hd
    exact eq_of_form hlexact hrexact h (Body.form_of_ordering hd)

/-- Members that are read as they are, joined to what comes before them. -/
theorem of_condition_chain {k : Connective} (hcs : ∀ c ∈ cs, c.ReadsSame) {first : Expr}
    (h : Body.condition (some "x") (chain k.operator first cs) = .ok d) :
    ∃ c, Body.condition (some "x") first = .ok c ∧ d = cs.foldl k.join c := by
  induction cs generalizing first with
  | nil => exact ⟨d, h, rfl⟩
  | cons c cs ih =>
    rw [List.forall_mem_cons] at hcs
    obtain ⟨b, hb, rfl⟩ := ih hcs.2 h
    obtain ⟨l, r, hl, hr, rfl⟩ := condition_join_iff.mp hb
    obtain rfl := hcs.1 r hr
    exact ⟨l, hl, rfl⟩

/-- Members of one connective that are read as they are. Joining them one by one flattens nothing, as
no member is made by the same connective. -/
theorem readsSame_condition {k : Connective} (hlength : 2 ≤ (c :: cs).length)
    (htakes : (c :: cs).all k.takes = true) (hc : c.ReadsSame) (hcs : ∀ c ∈ cs, c.ReadsSame) :
    (k.condition (c :: cs)).ReadsSame := by
  intro d hd
  have htree : (k.condition (c :: cs)).tree = chain k.operator c.tree cs := by cases k <;> rfl
  rw [htree] at hd
  obtain ⟨first, hfirst, rfl⟩ := of_condition_chain hcs hd
  rw [hc first hfirst, foldl_join_members hlength htakes]

mutual

/-- **A normal condition**, written and read, is the same. -/
theorem readsSame_of_isNormal : (c : Condition) → c.IsExact → c.IsNormal → c.ReadsSame
  | .const _, _, _ => .of_eq rfl
  | .congruent _ _, hexact, hpos => .of_eq (condition_congruent hexact.1 hpos)
  | .equals _, hexact, _ => .of_eq (condition_equals hexact)
  | .lessThan _, hexact, _ => .of_eq (condition_bound .lt hexact)
  | .atMost _, hexact, _ => .of_eq (condition_bound .le hexact)
  | .greaterThan _, hexact, _ => .of_eq (condition_bound .gt hexact)
  | .atLeast _, hexact, _ => .of_eq (condition_bound .ge hexact)
  | .compare _ _ _, hexact, h => readsSame_compare hexact.1 hexact.2 h
  | .any [], _, h | .all [], _, h => absurd h.1 (by decide)
  | .any (c :: cs), hexact, h =>
    readsSame_condition (k := .any) h.1 h.2.1 (readsSame_of_isNormal c hexact.1 h.2.2.1)
      (eachReadsSame_of_isNormal cs hexact.2 h.2.2.2)
  | .all (c :: cs), hexact, h =>
    readsSame_condition (k := .all) h.1 h.2.1 (readsSame_of_isNormal c hexact.1 h.2.2.1)
      (eachReadsSame_of_isNormal cs hexact.2 h.2.2.2)
  | .not operand, hexact, h => by
    intro d hd
    obtain ⟨inner, hinner, hnegated⟩ := bind_eq_ok_iff.mp hd
    rw [readsSame_of_isNormal operand hexact h.2 inner hinner, negate_of_isNegatable h.1] at hnegated
    exact (Except.ok.inj hnegated).symm

/-- Each of the members is the same. -/
theorem eachReadsSame_of_isNormal : (cs : List Condition) → EachExact cs → EachSimple IsLasting cs →
    ∀ c ∈ cs, c.ReadsSame
  | [], _, _ => List.forall_mem_nil _
  | c :: cs, hexact, h =>
    List.forall_mem_cons.mpr ⟨readsSame_of_isNormal c hexact.1 h.1,
      eachReadsSame_of_isNormal cs hexact.2 h.2⟩

end

end Condition

/-! ### Rules -/

/-- **A normal rule** is what the statements that it is written as are read as. -/
theorem Rule.eq_of_block {r r' : Rule} {body : List Stmt} (hexact : r.IsExact) (h : r.IsNormal)
    (hbody : RuleBody r body) (hread : Body.block (some "x") body = .ok r') : r' = r := by
  induction r generalizing r' body with
  | answer outcome =>
    obtain ⟨line, rfl⟩ := hbody
    rw [Body.block, mapError_eq_ok_iff, value_outcome hexact] at hread
    exact (Except.ok.inj hread).symm
  | test condition taken otherwise iht iho =>
    obtain ⟨line, s, t, rfl, hs, ht⟩ := hbody
    obtain ⟨a, b, c, ha, hb, hc, rfl⟩ := Body.block_cond_eq_ok_iff.mp hread
    -- no branch is dropped, as the condition is not constant
    obtain rfl := condition.readsSame_of_isNormal hexact.1 h.2.1 c hc
    obtain rfl := iht hexact.2.1 h.2.2.1 hs ha
    obtain rfl := iho hexact.2.2 h.2.2.2 ht hb
    unfold Body.branch
    split
    · exact absurd rfl (h.1 true)
    · exact absurd rfl (h.1 false)
    · rfl
  | rebase shift rule ih =>
    obtain ⟨line, rest, rfl, hrest⟩ := hbody
    obtain ⟨-, _, back, inner, hterm, hback, hinner, rfl⟩ := Body.of_block_assign hread
    have hshift := Word.ofExpr_shiftTree (Word.neg_ne_minValue hexact.1)
    obtain rfl := Term.step.inj (Except.ok.inj (hterm.symm.trans hshift))
    obtain rfl := Option.some.inj (hback.symm.trans (Word.neg?_neg hexact.1))
    obtain rfl := ih hexact.2 h hrest hinner
    rfl

/-! ### One slot -/

/-- The first slot of a folder, with its usual label and settings. -/
def Slot.first (r : Rule) : Slot := ⟨0, .folder, Slot.folderLabel 0, r, .standard⟩

namespace Track

/-- The track with only the rule, in its first slot. -/
def holding (t : Track) (r : Rule) : Track := { t with slots := [Slot.first r] }

/-- The rule that is read back once the track's script is written with the rule. -/
def readBack (t : Track) (r : Rule) : Option Rule :=
  (readTrack (render (t.holding r)) t.name).1.toOption.bind fun read ↦
    read.slots.head?.map (·.rule)

end Track

namespace Script

theorem isWritable_first : (Slot.first .always).IsWritable where
  label := by decide
  notKeyword := by decide
  notOperator := by decide
  sample := nofun
  rule := trivial
  preset := readsBack_standard

/-- The statements define the rule as the function of the first slot, and play that slot by it. -/
def IsHolding (r : Rule) (stmts : List Stmt) : Prop :=
  ∃ settings line body folderLoop bundledLoop,
    stmts = settings ++ [.define line (Slot.folderLabel 0) (some "x") body] ++ [folderLoop] ++
      [bundledLoop] ∧
    (∀ s ∈ settings, IsAside s) ∧ IsWrittenRule r body ∧
    IsLoop "extracted_samples" [Slot.first .always] folderLoop ∧
    IsLoop "sonic_pi_samples" [] bundledLoop

theorem render_holding (t : Track) (r : Rule) :
    render (t.holding r) = settingsText t ++ functionText (Slot.folderLabel 0) (Slot.first r)
      ++ loopText "extracted_samples" [(Slot.first .always, Slot.folderLabel 0)]
      ++ loopText "sonic_pi_samples" [] := by
  have hlabel : ∀ s ∈ (t.holding r).slots, isFunctionName s.label = true :=
    List.forall_mem_singleton.mpr isWritable_first.label
  rw [render_eq hlabel (List.nodup_singleton _)]
  show settingsText t ++ String.join [functionText (Slot.folderLabel 0) (Slot.first r)]
    ++ loopText "extracted_samples" [(Slot.first r, Slot.folderLabel 0)]
    ++ loopText "sonic_pi_samples" [] = _
  rw [String.join_cons, String.join_nil, String.append_empty]
  rfl

theorem holding_written {t : Track} {r : Rule} (h : (t.holding r).FitsWords) :
    WrittenLines (render (t.holding r)).toList (IsHolding r) := by
  obtain ⟨⟨hbpm, hbeats⟩, -, hrules⟩ := (t.holding r).fitsWords_iff.mp h
  have hfirst : ∀ s ∈ [Slot.first .always], s.IsWritable :=
    List.forall_mem_singleton.mpr isWritable_first
  have hname := isName_of_isFunctionName isWritable_first.label
  have hrule : r.AvoidsLeast := hrules (Slot.first r) (List.mem_singleton_self _)
  have hdefinition := define_written hname (legible_rule 1 hrule)
  have hfolder := loop_written "extracted_samples" rfl [Slot.first .always] hfirst
  have hbundled := loop_written "sonic_pi_samples" rfl [] (List.forall_mem_nil _)
  rw [render_holding, String.toList_append, String.toList_append, String.toList_append]
  refine ((((legible_settings hbpm hbeats).append hdefinition).append hfolder).append
    hbundled).mono ?_
  rintro _ ⟨_, _, rfl, ⟨_, _, rfl, ⟨settings, _, rfl, hsettings, line, body, rfl, hbody⟩,
    folder, rfl, hfolder⟩, bundled, rfl, hbundled⟩
  exact ⟨settings, line, body, folder, bundled, rfl, hsettings, hbody, hfolder, hbundled⟩

/-- What is parsed of the script holds the rule. -/
theorem isHolding_of_parse {t : Track} {r : Rule} {stmts : List Stmt}
    (h : parse (render (t.holding r)) = .ok stmts) : IsHolding r stmts := by
  have hnames : (t.holding r).HasSampleNames := List.forall_mem_singleton.mpr nofun
  obtain ⟨ts, htokens, -⟩ := bind_eq_ok_iff.mp h
  have hfits := (render_linesIff hnames).tokenize.mp ⟨ts, mapError_eq_ok_iff.mp htokens⟩
  obtain ⟨stmts', hstmts', hholding⟩ := parse_of_writtenLines (holding_written hfits)
  rwa [Except.ok.inj (h.symm.trans hstmts')]

/-- The sample lines of a loop over slots call the slots' functions. -/
theorem linesOf_of_loopOf {slots : List Slot} {l : LiveLoop} (h : LoopOf slots l) :
    List.Forall₂ (fun s line ↦ line.guard = some (.call s.label [.var "idx"])) slots
      (linesOf l.body) := by
  obtain ⟨first, last, samples, hbody, hsamples⟩ := h
  have hlines : linesOf l.body = linesOf samples := by
    rw [linesOf, hbody, List.filterMap_cons, List.filterMap_append]
    exact List.append_nil _
  rw [hlines]
  clear hbody hlines
  induction hsamples with
  | nil => exact .nil
  | cons hfirst _ ih =>
    obtain ⟨line, line', options, rfl, -⟩ := hfirst
    exact .cons rfl ih

variable {r : Rule} {stmts : List Stmt}

/-- The one sample line calls the function. -/
theorem sampleLines_of_isHolding (h : IsHolding r stmts) :
    ∃ line, sampleLines stmts = [line] ∧
      line.guard = some (.call (Slot.folderLabel 0) [.var "idx"]) := by
  obtain ⟨settings, line, body, folder, bundled, rfl, hsettings, -, hfolder, hbundled⟩ := h
  obtain ⟨l, hl, hloop⟩ := loopOf_of_isLoop hfolder
  obtain ⟨l', hl', hloop'⟩ := loopOf_of_isLoop hbundled
  have hnone : settings.filterMap LiveLoop.of? = [] :=
    List.filterMap_eq_nil_iff.mpr fun s hs ↦ (hsettings s hs).1
  have hloops : (settings ++ [Stmt.define line (Slot.folderLabel 0) (some "x") body] ++ [folder] ++
      [bundled]).filterMap LiveLoop.of? = [l, l'] := by
    simp only [List.filterMap_append, hnone, List.filterMap_cons, List.filterMap_nil, hl, hl']
    rfl
  have hlines := linesOf_of_loopOf hloop
  have hlines' := linesOf_of_loopOf hloop'
  rw [sampleLines, hloops, List.flatMap_cons, List.flatMap_cons, List.flatMap_nil]
  generalize linesOf l.body = lines at hlines
  generalize linesOf l'.body = lines' at hlines'
  cases hlines'
  rcases hlines with _ | ⟨hguard, _ | _⟩
  exact ⟨_, rfl, hguard⟩

/-- The function is that of the rule. -/
theorem definition?_of_isHolding (h : IsHolding r stmts) :
    ∃ body, IsWrittenRule r body ∧ definition? (Slot.folderLabel 0) stmts = some (some "x", body) := by
  obtain ⟨settings, line, body, folder, bundled, rfl, hsettings, hbody, hfolder, hbundled⟩ := h
  obtain ⟨_, _, _, _, rfl, -⟩ := hfolder
  obtain ⟨_, _, _, _, rfl, -⟩ := hbundled
  have hnone : settings.filterMap (definitionOf? (Slot.folderLabel 0)) = [] :=
    List.filterMap_eq_nil_iff.mpr fun s hs ↦ (hsettings s hs).2 _
  refine ⟨body, hbody, ?_⟩
  rw [definition?, List.filterMap_append, List.filterMap_append, List.filterMap_append, hnone]
  rfl

/-- What the first slot of a script's track has for a rule. -/
theorem block_of_isHolding (h : IsHolding r stmts) {name : String} {t : Track}
    (ht : MayGive (trackOf stmts name) t) :
    ∃ body r', IsWrittenRule r body ∧ Body.block (some "x") body = .ok r' ∧
      t.slots.head?.map (·.rule) = some r' := by
  obtain ⟨line, hlines, hguard⟩ := sampleLines_of_isHolding h
  obtain ⟨body, hbody, hdefinition⟩ := definition?_of_isHolding h
  obtain ⟨env, htrack⟩ := isTrackOf_of_mayGive ht
  have hslots := htrack.slots
  rw [hlines] at hslots
  obtain ⟨slot, hmakes, hslot⟩ : ∃ slot, line.Makes stmts slot ∧ t.slots = [slot] := by
    generalize t.slots = slots at hslots
    rcases hslots with _ | ⟨hmakes, _ | _⟩
    exact ⟨_, hmakes, rfl⟩
  have hnames := hmakes.guarded _ _ hguard
  rw [Names, hdefinition] at hnames
  exact ⟨body, slot.rule, hbody, hnames, by rw [hslot]; rfl⟩

end Script

namespace Track

variable {t : Track} {r r' : Rule}

/-- What is read back is what the statements of the rule are read as. -/
theorem block_of_readBack (h : t.readBack r = some r') :
    ∃ body, IsWrittenRule r body ∧ Body.block (some "x") body = .ok r' := by
  obtain ⟨read, hread, hrule⟩ := Option.bind_eq_some_iff.mp h
  have hrun := toOption_eq_some_iff.mp hread
  obtain ⟨stmts, hparse, htrack⟩ := (mayGive_of_run hrun).of_bind
  have hholding := isHolding_of_parse hparse.of_within
  obtain ⟨body, r'', hbody, hblock, hslot⟩ := block_of_isHolding hholding htrack
  obtain rfl := Option.some.inj (hslot.symm.trans hrule)
  exact ⟨body, hbody, hblock⟩

theorem isNormal_of_readBack (h : t.readBack r = some r') : r'.IsNormal := by
  obtain ⟨body, hbody, hread⟩ := block_of_readBack h
  exact Body.isNormal_of_block hbody.callFree hread

/-- A normal rule can only be read back as itself. -/
theorem eq_of_readBack (hfloats : r.floats = []) (hnormal : r.IsNormal)
    (h : t.readBack r = some r') : r' = r := by
  obtain ⟨body, hbody, hread⟩ := block_of_readBack h
  obtain ⟨hexact, hwritten⟩ := hbody.exact hfloats
  exact Rule.eq_of_block hexact hnormal hwritten hread

/-- **A rule that went through a script** is left as it is from then on, and so is the script. -/
theorem readBack_stable (t : Track) (p p₁ p₂ : Rule) (h₁ : t.readBack p = some p₁)
    (hfloats : p₁.floats = []) (h₂ : t.readBack p₁ = some p₂) :
    p₂ = p₁ ∧ render (t.holding p₂) = render (t.holding p₁) := by
  have heq := eq_of_readBack hfloats (isNormal_of_readBack h₁) h₂
  exact ⟨heq, congrArg (fun p ↦ render (t.holding p)) heq⟩

/-! ### Rules that are read back -/

theorem isWritable_holding (hvalid : (t.holding r).validate = .ok ()) (hnamed : t.name ≠ "")
    (hbpm : ReadsBack t.bpm) (hbeats : ReadsBack t.beatsPerStep) (hexact : r.IsExact) :
    (t.holding r).IsWritable where
  valid := hvalid
  named := hnamed
  nonempty := List.cons_ne_nil _ _
  slots := List.forall_mem_singleton.mpr { isWritable_first with rule := hexact }
  distinct := List.nodup_singleton _
  numbered := (Nat.one_lt_two_pow (by decide)).le
  bpm := hbpm
  beatsPerStep := hbeats

/-- A rule in a writable track is read back as some rule. -/
theorem exists_readBack (h : (t.holding r).IsWritable) (hfit : r.RemaindersFit) :
    ∃ r', t.readBack r = some r' := by
  obtain ⟨⟨-, hpositive⟩, -⟩ := validate_eq_ok h.valid
  obtain ⟨stmts, hstmts, hscript⟩ := parse_render h (NumberLayout.head?_single_of_pos hpositive)
  obtain ⟨read, hmatches, hgives⟩ := gives_trackOf h (List.forall_mem_singleton.mpr hfit) hscript
  have hparse : Gives (within id (parse (render (t.holding r)))) stmts := gives_within hstmts
  obtain ⟨more, hmore⟩ := (hparse.bind (f := fun stmts ↦ trackOf stmts t.name) hgives) []
  have hread : (readTrack (render (t.holding r)) t.name).1 = .ok read := congrArg Prod.fst hmore
  obtain ⟨slot, hslot⟩ := List.length_eq_one_iff.mp hmatches.slots.length_eq.symm
  refine ⟨slot.rule, ?_⟩
  rw [readBack, hread, Except.toOption, Option.bind_some, hslot]
  rfl

theorem readBack_of_block (h : (t.holding r).IsWritable) (hfit : r.RemaindersFit)
    (hfloats : r.floats = [])
    (hread : ∀ body, RuleBody r body → Body.block (some "x") body = .ok r') :
    t.readBack r = some r' := by
  obtain ⟨read, hr⟩ := exists_readBack h hfit
  obtain ⟨body, hbody, hblock⟩ := block_of_readBack hr
  have hsame := (hread body (hbody.exact hfloats).2).symm.trans hblock
  rw [hr, Except.ok.inj hsame]

end Track

/-- A track without slots. -/
def Track.bare : Track where
  name := "loop"
  samplesDir := "kit"
  bpm := 60
  stepCount := 16
  beatsPerStep := 1
  slots := []

/-- A rule with a choice in a choice, two negations, and arithmetic on the step. -/
def Rule.nested : Rule :=
  .rebase 3 (.test (.any [.not (.not (.equals 2)), .any [.const false,
    .compare (.order .lt) (.binary .add .step (.const (.int 1))) (.const (.int 9))]])
    (.answer .true) (.answer (.sentinel 7)))

/-- The rule as it is read back. -/
def Rule.flattened : Rule :=
  .rebase 3 (.test (.any [.equals 2, .lessThan 8]) (.answer .true) (.answer (.sentinel 7)))

namespace Track

theorem readBack_nested : bare.readBack .nested = some .flattened := by
  have hexact : Rule.nested.IsExact := by
    simp [Rule.nested, Rule.IsExact, Condition.IsExact, Condition.EachExact, StepExpr.IsExact]
    decide
  have hfit : Rule.nested.RemaindersFit := by
    simp [Rule.nested, Rule.RemaindersFit, Condition.ForSides, Condition.EachForSides,
      StepExpr.RemaindersFit]
  have hwritable := isWritable_holding (t := bare) (by rfl) (by decide) readsBack_sixty
    readsBack_one hexact
  refine readBack_of_block hwritable hfit rfl ?_
  rintro _ ⟨l₁, _, rfl, l₂, _, _, rfl, ⟨l₃, rfl⟩, l₄, rfl⟩
  with_unfolding_all rfl

/-- The rule is read back once more, and is the same. -/
theorem readBack_stable_nested :
    bare.readBack .nested = some .flattened ∧ Rule.flattened.floats = [] ∧
      ∃ p, bare.readBack .flattened = some p ∧
        p = .flattened ∧ render (bare.holding p) = render (bare.holding .flattened) := by
  have hexact : Rule.flattened.IsExact := by
    simp [Rule.flattened, Rule.IsExact, Condition.IsExact, Condition.EachExact]
    decide
  have hfit : Rule.flattened.RemaindersFit := by
    simp [Rule.flattened, Rule.RemaindersFit, Condition.ForSides, Condition.EachForSides]
  have hwritable := isWritable_holding (t := bare) (by rfl) (by decide) readsBack_sixty
    readsBack_one hexact
  obtain ⟨p, hp⟩ := exists_readBack hwritable hfit
  exact ⟨readBack_nested, rfl, p, hp, readBack_stable bare .nested .flattened p readBack_nested rfl hp⟩

end Track

end StepSequencer
