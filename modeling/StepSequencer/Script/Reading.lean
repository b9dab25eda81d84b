import StepSequencer.Log
import StepSequencer.Script.Body
import StepSequencer.Script.Lexer
import StepSequencer.Script.Parser
import StepSequencer.Track.Basic

/-!
# From a script to a track

A script sets names and settings, defines rules as functions, and plays samples in live loops. The
loops that play anything become the slots of one track: each sample line is a slot, its guard gives
the rule. All loops share the step counter of the first one.

Reading goes on past whatever it does not need and notes what it leaves out; the notices stand also
when the reading fails later. An overflow in a rule aborts the program: no context is put on it.
-/

namespace StepSequencer.Script

/-! ### Errors and notices -/

/-- Why an expression is no number. -/
inductive NumberError where
  | notANumber (name : String)
  | neverSet (name : String)
  | unsupportedLookup (e : Expr)
  | unsupportedExpression (e : Expr)
  | expectedNumber (e : Expr)

/-- The wording of the error. -/
def NumberError.message : NumberError → String
  | .notANumber name => "`" ++ name ++ "` is not a number"
  | .neverSet name => ":" ++ name ++ " was never set"
  | .unsupportedLookup e => "unsupported lookup " ++ e.shown
  | .unsupportedExpression e => "unsupported numeric expression " ++ e.shown
  | .expectedNumber e => "expected a number, found " ++ e.shown

/-- Why a script is no track. -/
inductive ReadError where
  | lexical (cause : LexError)
  | grammar (cause : ParseError)
  | body (cause : BodyError)
  | number (cause : NumberError)
  | rangeArguments
  | rangeForm (name : String)
  | nothingPlays
  | tooManySamples (label : String)
  | ticksNoName
  | notARange (name : String)
  | sleepArguments
  | neverTicks
  | neverSleeps
  | unknownFolder (name : String)
  | unsupportedFolder (e : Expr)
  | badIndex (index : Int64)
  | indexNotWhole (e : Expr)
  | sampleForm
  | guardArgument (name : String)
  | inOption (key : String) (cause : ReadError)
  | atLine (line : Nat) (cause : ReadError)
  | inFunction (name : String) (line : Nat) (cause : ReadError)
  | inLoop (name : String) (line : Nat) (cause : ReadError)

/-- The wording of the error. -/
def ReadError.message : ReadError → String
  | .lexical cause => cause.message
  | .grammar cause => cause.message
  | .body cause => cause.message
  | .number cause => cause.message
  | .rangeArguments => "range takes two or three arguments"
  | .rangeForm name => "only range(0, n, 1) is supported for `" ++ name ++ "`"
  | .nothingPlays => "script has no live_loop that plays samples"
  | .tooManySamples label => "too many samples to number " ++ label
  | .ticksNoName => "can only tick a named range"
  | .notARange name => "`" ++ name ++ "` is not a range"
  | .sleepArguments => "sleep takes one argument"
  | .neverTicks => "loop never ticks a range"
  | .neverSleeps => "loop never sleeps"
  | .unknownFolder name => "unknown sample folder `" ++ name ++ "`"
  | .unsupportedFolder e => "unsupported sample folder " ++ e.shown
  | .badIndex index => "bad sample index " ++ toString index.toInt
  | .indexNotWhole e => "sample index must be an integer, found " ++ e.shown
  | .sampleForm => "expected `sample <folder>, <index>` or `sample <name>`"
  | .guardArgument name => "guard " ++ name ++ "(..) must be called with the ticked index"
  | .inOption key cause => "option " ++ key ++ ": " ++ cause.message
  | .atLine line cause => "line " ++ toString line ++ ": " ++ cause.message
  | .inFunction name line cause =>
    "in :" ++ name ++ " (line " ++ toString line ++ "): " ++ cause.message
  | .inLoop name line cause =>
    "in live_loop :" ++ name ++ " (line " ++ toString line ++ "): " ++ cause.message

/-- What reading leaves out or takes for something else. -/
inductive ReadNotice where
  | sentinels (name : String) (values : List Int64)
  | ignoredStatement (line : Nat)
  | ignoredAssignment (name : String)
  | ignoredCommand (name : String)
  | silentLoop (name : String)
  | otherClock (line : Nat) (name : String) (steps : UInt32) (beats : Float) (first : String)
      (firstSteps : UInt32) (firstBeats : Float)
  | otherFolder (line : Nat) (folder used : String)
  | ignoredInLoop (line : Nat)
  | ignoredOption (sample key : String)
  | undefinedGuard (sample name : String)

namespace ReadNotice

/-- How much the notice matters. -/
def level : ReadNotice → LogLevel
  | .ignoredAssignment _ | .silentLoop _ => .debug
  | _ => .warn

/-- The wording of the notice. -/
def text : ReadNotice → String
  | .sentinels name values =>
    ":" ++ name ++ " can return integer [" ++ ", ".intercalate (values.map (toString ·.toInt))
      ++ "] instead of a boolean; treating it as truthy (likely a generator artifact)"
  | .ignoredStatement line => "line " ++ toString line ++ ": ignoring top-level statement"
  | .ignoredAssignment name => "ignoring assignment to " ++ name
  | .ignoredCommand name => "ignoring `" ++ name ++ "`"
  | .silentLoop name => "live_loop :" ++ name ++ " plays nothing, skipping"
  | .otherClock line name steps beats first firstSteps firstBeats =>
    "line " ++ toString line ++ ": :" ++ name ++ " steps " ++ clock steps beats
      ++ " beats, following :" ++ first ++ " (" ++ clock firstSteps firstBeats ++ " beats)"
  | .otherFolder line folder used =>
    "line " ++ toString line ++ ": samples from " ++ folder ++ " will be looked up in " ++ used
  | .ignoredInLoop line => "line " ++ toString line ++ ": ignoring statement in live_loop"
  | .ignoredOption sample key => sample ++ ": ignoring option " ++ key
  | .undefinedGuard sample name =>
    sample ++ " is guarded by undefined :" ++ name ++ "; it will never play"
where
  clock (steps : UInt32) (beats : Float) : String :=
    toString steps.toNat ++ " x " ++ NumberLayout.plain.double beats

/-- The log entry of the notice. -/
def entry (n : ReadNotice) : LogEntry := ⟨n.level, .script, n.text⟩

end ReadNotice

/-- Reading with its notices, which are kept when it fails. -/
abbrev Reading := ExceptT (Halt ReadError) (StateM (List ReadNotice))

/-- Adds a notice. -/
def notice (n : ReadNotice) : Reading Unit := modify (· ++ [n])

/-- Refuses the script. -/
def refuse {α : Type} (e : ReadError) : Reading α := throw (.refused e)

/-- Goes on with a result or ends as it did, the cause of a refusal put into a context. -/
def resume {ε α : Type} (context : ε → ReadError) (x : Except (Halt ε) α) : Reading α :=
  match x with
  | .ok a => pure a
  | .error h => throw (h.map context)

/-- Goes on with a result or refuses the script for its error, put into a context. -/
def within {ε α : Type} (context : ε → ReadError) (x : Except ε α) : Reading α :=
  resume context (x.mapError .refused)

/-- Puts the cause for which a reading refuses the script into a context. -/
def inContext {α : Type} (context : ReadError → ReadError) (x : Reading α) : Reading α :=
  tryCatch x (throw ∘ Halt.map context)

/-! ### Names and numbers -/

/-- What the top level of a script has set; a later entry for a name comes before an earlier one. -/
structure Env where
  strings : List (String × String)
  numbers : List (String × Float)
  ranges : List (String × UInt32)
  settings : List (String × Float)
  bpm : Option Float
  functions : List (String × Rule)

/-- Nothing set. -/
def Env.empty : Env := ⟨[], [], [], [], none, []⟩

/-- The value of a numeric expression. -/
def Env.number (env : Env) : Expr → Except NumberError Float
  | .int value => .ok (Word.toFloat value)
  | .float value => .ok value
  | .var name =>
    match env.numbers.lookup name with
    | some x => .ok x
    | none => .error (.notANumber name)
  | .index (.var "get") (.symbol name) =>
    match env.settings.lookup name with
    | some x => .ok x
    | none => .error (.neverSet name)
  | .index receiver key => .error (.unsupportedLookup (.index receiver key))
  | .unary .neg operand => do
    let x ← env.number operand
    .ok (-x)
  | .binary op lhs rhs => do
    let x ← env.number lhs
    let y ← env.number rhs
    match op with
    | .arith .add => .ok (x + y)
    | .arith .sub => .ok (x - y)
    | .arith .mul => .ok (x * y)
    | .arith .pow => .ok (x.pow y)
    | .arith .div =>
      if y != 0 then .ok (x / y) else .error (.unsupportedExpression (.binary op lhs rhs))
    | _ => .error (.unsupportedExpression (.binary op lhs rhs))
  | e => .error (.expectedNumber e)

/-! ### The top level -/

/-- The bounds of a range that the step counter can follow: from zero in steps of one. -/
def rangeLength (name : String) : List Float → Except ReadError UInt32
  | [start, stop] => length start stop 1
  | [start, stop, step] => length start stop step
  | _ => .error .rangeArguments
where
  /-- The number of steps in the range. -/
  length (start stop step : Float) : Except ReadError UInt32 :=
    if start != 0 || step != 1 || stop < 1 then .error (.rangeForm name) else .ok stop.toUInt32

/-- Takes in an assignment: a text, a range or a number. -/
def Env.assign (env : Env) (name : String) (value : Expr) : Reading Env :=
  match value with
  | .str text => pure { env with strings := (name, text) :: env.strings }
  | .call "range" args => do
    let bounds ← within .number (args.mapM env.number)
    let steps ← within id (rangeLength name bounds)
    pure { env with ranges := (name, steps) :: env.ranges }
  | value =>
    match env.number value with
    | .ok x => pure { env with numbers := (name, x) :: env.numbers }
    | .error _ => do
      notice (.ignoredAssignment name)
      pure env

/-- Takes in a call without parentheses: the tempo or a setting. -/
def Env.command (env : Env) (name : String) (args : List Expr) : Reading Env :=
  match name, args with
  | "use_bpm", [bpm] => do
    let x ← within .number (env.number bpm)
    pure { env with bpm := some x }
  | "set", [.symbol key, value] => do
    let x ← within .number (env.number value)
    pure { env with settings := (key, x) :: env.settings }
  | _, _ => do
    notice (.ignoredCommand name)
    pure env

/-- Takes in a statement of the top level. Live loops are read once everything is set. -/
def Env.statement (env : Env) : Stmt → Reading Env
  | .liveLoop .. => pure env
  | .define line name param body => do
    let rule ← resume (.inFunction name line ∘ .body) (Body.block param body)
    unless rule.sentinels.isEmpty do
      notice (.sentinels name rule.sentinels)
    pure { env with functions := (name, rule) :: env.functions }
  | .assign line name value => inContext (.atLine line) (env.assign name value)
  | .command line name args _ => inContext (.atLine line) (env.command name args)
  | stmt => do
    notice (.ignoredStatement stmt.line)
    pure env

/-! ### Sample lines -/

/-- A line that plays a sample. -/
structure SampleLine where
  line : Nat
  args : List Expr
  options : List (String × Expr)
  guard : Option Expr

/-- The sample line that a statement is, if it is one: the call by itself, or as all that a
single condition runs. -/
def SampleLine.of? : Stmt → Option SampleLine
  | .command line "sample" args options => some ⟨line, args, options, none⟩
  | .cond line [(guard, [.command _ "sample" args options])] [] =>
    some ⟨line, args, options, some guard⟩
  | _ => none

/-- What a sample line plays: a folder with an index in it, or a bundled sample. -/
inductive SampleChoice where
  | folder (dir : String) (index : SlotId)
  | bundled (name : String)

namespace SampleChoice

/-- How a message calls the sample. -/
def text : SampleChoice → String
  | .folder _ index => "sample " ++ toString index.toNat
  | .bundled name => ":" ++ name

/-- The source of the slot. -/
def source : SampleChoice → SampleSource
  | .folder .. => .folder
  | .bundled name => .bundled name

/-- The slot's number, which a bundled sample gets only later. -/
def slot : SampleChoice → SlotId
  | .folder _ index => index
  | .bundled _ => 0

/-- The folder of the sample. -/
def dir? : SampleChoice → Option String
  | .folder dir _ => some dir
  | .bundled _ => none

end SampleChoice

/-- The folder that an argument names. -/
def Env.folder (env : Env) : Expr → Except ReadError String
  | .str text => .ok text
  | .var name =>
    match env.strings.lookup name with
    | some text => .ok text
    | none => .error (.unknownFolder name)
  | e => .error (.unsupportedFolder e)

/-- The index that an argument gives. -/
def sampleIndex : Expr → Except ReadError SlotId
  | .int value =>
    if 0 ≤ value.toInt ∧ value.toInt < 2 ^ 16 then .ok (UInt16.ofNat value.toInt.toNat)
    else .error (.badIndex value)
  | e => .error (.indexNotWhole e)

/-- What the arguments of a sample line choose. A name that is no folder is a bundled sample. -/
def Env.choice (env : Env) : List Expr → Except ReadError SampleChoice
  | [dir, index] => do
    let dir ← env.folder dir
    let index ← sampleIndex index
    .ok (.folder dir index)
  | [.symbol name] => .ok (.bundled name)
  | [.var name] =>
    if (env.strings.lookup name).isNone then .ok (.bundled name) else .error .sampleForm
  | _ => .error .sampleForm

/-- The options of a sample line as numbers. -/
def Env.options (env : Env) (options : List (String × Expr)) :
    Except ReadError (List (String × Float32)) :=
  options.mapM fun (key, e) ↦
    match env.number e with
    | .ok x => .ok (key, (Binary.ofDouble x).toSingle)
    | .error cause => .error (.inOption key (.number cause))

/-- The name by which a loop calls the current step, and the length of the range
it counts through. -/
abbrev Ticked := String × UInt32

/-- The label that a guard gives, and its rule. A call stands for the function's rule and must be
given the current step; any other guard is a rule by itself. -/
def Env.guardRule (env : Env) (sample : String) (ticked : Option Ticked) :
    Option Expr → Reading (Option String × Rule)
  | none => pure (none, .always)
  | some (.call name args) => do
    let isTicked := match args, ticked with
      | [.var arg], some (index, _) => arg == index
      | _, _ => false
    unless isTicked do
      refuse (.guardArgument name)
    match env.functions.lookup name with
    | some rule => pure (some name, rule)
    | none => do
      notice (.undefinedGuard sample name)
      pure (some name, .never)
  | some e => do
    let rule ← resume .body (Body.value (ticked.map (·.1)) e)
    pure (none, rule)

/-- The slot of a sample line, and the folder it names. -/
def Env.sample (env : Env) (ticked : Option Ticked) (s : SampleLine) :
    Reading (Option String × Slot) := do
  let choice ← within id (env.choice s.args)
  let options ← within id (env.options s.options)
  (Preset.unknownOptions options).forM fun key ↦ notice (.ignoredOption choice.text key)
  let (label, rule) ← env.guardRule choice.text ticked s.guard
  let usual := Slot.usualLabel choice.slot choice.source
  pure (choice.dir?, ⟨choice.slot, choice.source, label.getD usual, rule, .ofOptions options⟩)

/-! ### Live loops -/

/-- A live loop of the script. -/
structure LiveLoop where
  line : Nat
  name : String
  body : List Stmt

/-- The live loop that a statement is, if it is one. -/
def LiveLoop.of? : Stmt → Option LiveLoop
  | .liveLoop line name body => some ⟨line, name, body⟩
  | _ => none

/-- Whether the loop plays a sample. -/
def LiveLoop.plays (l : LiveLoop) : Bool := l.body.any fun s ↦ (SampleLine.of? s).isSome

/-- What the loops read so far have given: the folder of all samples, and the slots. -/
structure Gathered where
  samplesDir : Option String
  slots : List Slot

/-- How far a loop is read: what is gathered, the counter it ticks, and how long it sleeps. -/
structure LoopState where
  gathered : Gathered
  ticked : Option Ticked
  beats : Option Float

/-- Takes in the slot of a sample line. The first folder is the folder of all. -/
def Gathered.add (g : Gathered) (line : Nat) (dir : Option String) (slot : Slot) :
    Reading Gathered := do
  match dir, g.samplesDir with
  | some dir, some used =>
    if used ≠ dir then
      notice (.otherFolder line dir used)
  | _, _ => pure ()
  pure ⟨g.samplesDir <|> dir, g.slots ++ [slot]⟩

/-- Takes in a statement of a loop. -/
def Env.loopStatement (env : Env) (s : LoopState) (stmt : Stmt) : Reading LoopState :=
  match SampleLine.of? stmt with
  | some sample => do
    let (dir, slot) ← inContext (.atLine sample.line) (env.sample s.ticked sample)
    let gathered ← s.gathered.add sample.line dir slot
    pure { s with gathered }
  | none =>
    match stmt with
    | .assign line name (.method (.var range) "tick" _) =>
      match env.ranges.lookup range with
      | some steps => pure { s with ticked := some (name, steps) }
      | none => refuse (.atLine line (.notARange range))
    | .assign line _ (.method _ "tick" _) => refuse (.atLine line .ticksNoName)
    | .command line "sleep" args _ =>
      match args with
      | [beats] => do
        let x ← within (.atLine line ∘ .number) (env.number beats)
        pure { s with beats := some x }
      | _ => refuse (.atLine line .sleepArguments)
    | stmt => do
      notice (.ignoredInLoop stmt.line)
      pure s

/-- Reads a loop: what is gathered after it, its number of steps, and the beats per step. -/
def Env.liveLoop (env : Env) (g : Gathered) (l : LiveLoop) :
    Reading (Gathered × UInt32 × Float) := do
  let s ← l.body.foldlM env.loopStatement ⟨g, none, none⟩
  match s.ticked, s.beats with
  | some (_, steps), some beats => pure (s.gathered, steps, beats)
  | none, _ => refuse .neverTicks
  | some _, none => refuse .neverSleeps

/-- The clock of a track: its first loop's name, number of steps, and beats per step. -/
structure Clock where
  name : String
  steps : UInt32
  beats : Float

/-- Reads the loops that play. The clock is that of the first; another loop's own is only noted. -/
def Env.liveLoops (env : Env) (g : Gathered) (clock : Option Clock) :
    List LiveLoop → Reading (Gathered × Option Clock)
  | [] => pure (g, clock)
  | l :: ls => do
    let (g, steps, beats) ← inContext (.inLoop l.name l.line) (env.liveLoop g l)
    match clock with
    | none => env.liveLoops g (some ⟨l.name, steps, beats⟩) ls
    | some c => do
      if c.steps != steps || c.beats != beats then
        notice (.otherClock l.line l.name steps beats c.name c.steps c.beats)
      env.liveLoops g (some c) ls

/-! ### Numbering and the whole track -/

/-- The first number after those of the folder slots. -/
def firstBundled (slots : List Slot) : Nat :=
  ((slots.filter (·.source.isFolder)).map (·.id.toNat + 1)).foldl max 0

/-- Numbers the bundled slots one after the other from `next` on. -/
def numberBundled (next : Nat) : List Slot → Except ReadError (List Slot)
  | [] => .ok []
  | s :: ss =>
    if s.source.isFolder then do
      let rest ← numberBundled next ss
      .ok (s :: rest)
    else if next < 2 ^ 16 then do
      let rest ← numberBundled (next + 1) ss
      .ok ({ s with id := UInt16.ofNat next } :: rest)
    else .error (.tooManySamples s.label)

/-- The tempo of a script that sets none. -/
def defaultBpm : Float := 60

/-- The track of a list of statements. Without a name of its own it takes that of its first loop. -/
def trackOf (stmts : List Stmt) (name : String) : Reading Track := do
  let env ← stmts.foldlM Env.statement .empty
  let loops := stmts.filterMap LiveLoop.of?
  (loops.filter (!·.plays)).forM fun l ↦ notice (.silentLoop l.name)
  let (gathered, clock) ← env.liveLoops ⟨none, []⟩ none (loops.filter (·.plays))
  match clock with
  | none => refuse .nothingPlays
  | some clock => do
    let slots ← within id (numberBundled (firstBundled gathered.slots) gathered.slots)
    pure {
      name := if name.isEmpty then clock.name else name
      samplesDir := gathered.samplesDir.getD ""
      bpm := (Binary.ofDouble (env.bpm.getD defaultBpm)).toSingle
      stepCount := clock.steps
      beatsPerStep := (Binary.ofDouble clock.beats).toSingle
      slots }

/-- The statements of a script text. -/
def parse (text : String) : Except ReadError (List Stmt) := do
  let tokens ← (tokenize text).mapError .lexical
  (parseTokens tokens).mapError .grammar

/-- The track of a script text, or why there is none, and what was noted on the way. -/
def readTrack (text name : String) : Except (Halt ReadError) Track × List ReadNotice :=
  let reading : Reading Track := do
    let stmts ← within id (parse text)
    trackOf stmts name
  reading.run.run []

end StepSequencer.Script
