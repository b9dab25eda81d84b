import StepSequencer.Number.Overflow
import StepSequencer.Track.Basic

/-!
# From a track to a script

Writes a track as a script: the settings, one function for each slot's rule, and two live loops, one
for the folder's samples and one for the bundled ones. Expressions are written with parentheses
around every operation, so that reading them needs no precedence.

A shift is written negated. That it has a negation is not checked: `write` aborts at the least word,
which has none. `render` is the same text with a negation that wraps.
-/

namespace StepSequencer.Script

/-! ### Names -/

/-- Whether the text can name a function: it starts with a small letter or an underscore, and goes
on with letters, digits and underscores. -/
def isFunctionName (s : String) : Bool :=
  match s.toList with
  | [] => false
  | c :: cs => (c.isLower || c == '_') && cs.all fun d ↦ d.isAlphanum || d == '_'

/-- The label of a slot that has no usable one. -/
def generatedLabel (s : Slot) : String :=
  match s.source with
  | .bundled name => if isFunctionName name then Slot.bundledLabel name else Slot.folderLabel s.id
  | .folder => Slot.folderLabel s.id

/-- The function name for a slot at a position, given the names already taken. -/
def functionName (taken : List String) (position : Nat) (s : Slot) : String :=
  let name := if isFunctionName s.label then s.label else generatedLabel s
  if taken.contains name then generatedLabel s ++ "_" ++ toString position else name

/-- The function names for slots from a position on. -/
def functionNamesFrom (taken : List String) (position : Nat) : List Slot → List String
  | [] => []
  | s :: ss =>
    let name := functionName taken position s
    name :: functionNamesFrom (name :: taken) (position + 1) ss

/-- The function names for the slots of a track, in order. -/
def functionNames (t : Track) : List String := functionNamesFrom [] 0 t.slots

/-! ### Expressions -/

/-- The step plus an offset. -/
def shiftedText (offset : Int64) : String :=
  if offset = 0 then "x"
  else if 0 < offset then "(x + " ++ toString offset.toInt ++ ")"
  else "(x - " ++ toString offset.toInt.natAbs ++ ")"

/-- A number. A float keeps a point, so that it reads back as a float; a value without digits is
written as the division that gives it. -/
def numberText : Num → String
  | .int n => toString n.toInt
  | .float x =>
    if x.isNaN then "(0.0 / 0.0)"
    else if x.isInf then if x < 0 then "(-1.0 / 0.0)" else "(1.0 / 0.0)"
    else
      let text := NumberLayout.plain.double x
      if text.contains '.' then text else text ++ ".0"

/-- Whether the expression is a negative constant. -/
def isNegativeConst : StepExpr → Bool
  | .const (.int n) => n.toInt < 0
  | .const (.float x) => x < 0
  | _ => false

/-- An expression. A minus before the base of a power would apply to the whole power, so a negative
base is put between parentheses. -/
def exprText : StepExpr → String
  | .step => "x"
  | .const value => numberText value
  | .neg operand => "(-" ++ exprText operand ++ ")"
  | .binary op lhs rhs =>
    let base := exprText lhs
    let base := if op = .pow && isNegativeConst lhs then "(" ++ base ++ ")" else base
    "(" ++ base ++ " " ++ op.symbol ++ " " ++ exprText rhs ++ ")"

mutual

/-- A condition. -/
def conditionText : Condition → String
  | .const value => if value then "true" else "false"
  | .congruent offset modulus => shiftedText offset ++ " % " ++ toString modulus.toInt ++ " == 0"
  | .equals bound => "x == " ++ toString bound.toInt
  | .lessThan bound => "x < " ++ toString bound.toInt
  | .atMost bound => "x <= " ++ toString bound.toInt
  | .greaterThan bound => "x > " ++ toString bound.toInt
  | .atLeast bound => "x >= " ++ toString bound.toInt
  | .compare op lhs rhs => exprText lhs ++ " " ++ op.symbol ++ " " ++ exprText rhs
  | .any [] => "false"
  | .any (c :: cs) => "(" ++ conditionText c ++ restText " || " cs ++ ")"
  | .all [] => "true"
  | .all (c :: cs) => "(" ++ conditionText c ++ restText " && " cs ++ ")"
  | .not operand => "!(" ++ conditionText operand ++ ")"

/-- Conditions, each after a connective. -/
def restText (connective : String) : List Condition → String
  | [] => ""
  | c :: cs => connective ++ conditionText c ++ restText connective cs

end

/-- An outcome. -/
def outcomeText : Outcome → String
  | .true => "true"
  | .false => "false"
  | .nil => "nil"
  | .sentinel value => toString value.toInt

/-! ### Lines -/

/-- A line of a script, indented by tabs. -/
def lineText (depth : Nat) (text : String) : String :=
  String.ofList (List.replicate depth '\t') ++ text ++ "\n"

/-- The lines of a rule. Every branch ends in a return, so the shifted step is seen by no other. -/
def ruleText (depth : Nat) : Rule → String
  | .answer outcome => lineText depth ("return " ++ outcomeText outcome)
  | .test condition taken otherwise =>
    lineText depth ("if " ++ conditionText condition) ++ ruleText (depth + 1) taken
      ++ lineText depth "else" ++ ruleText (depth + 1) otherwise ++ lineText depth "end"
  | .rebase shift rule =>
    lineText depth ("x = " ++ shiftedText (-shift)) ++ ruleText depth rule

/-- The characters with a backslash before each backslash and each single quote. -/
def escaped : List Char → List Char
  | [] => []
  | c :: cs => if c = '\\' ∨ c = '\'' then '\\' :: c :: escaped cs else c :: escaped cs

/-- A text as it stands between single quotes. -/
def quoteText (s : String) : String := String.ofList (escaped s.toList)

/-- The settings of a preset as options. -/
def optionsText (p : Preset) : String :=
  ", ".intercalate (PresetKey.all.map fun key ↦
    key.name ++ ": " ++ NumberLayout.plain.single (p.get key))

/-- A function with the lines of its body. -/
def defineText (name body : String) : String :=
  lineText 0 ("define :" ++ name ++ " do |x|") ++ body ++ lineText 0 "end"

/-- The function of a slot. -/
def functionText (name : String) (s : Slot) : String := defineText name (ruleText 1 s.rule)

/-- What a sample line plays. -/
def sampleText (s : Slot) : String :=
  match s.source with
  | .folder => "sample samps, " ++ toString s.id.toNat
  | .bundled name => "sample :" ++ name

/-- The sample line of a slot. -/
def sampleLineText (name : String) (s : Slot) : String :=
  lineText 1 (sampleText s ++ ", " ++ optionsText s.preset ++ " if " ++ name ++ "(idx)")

/-- A live loop over some slots with their function names. -/
def loopText (name : String) (slots : List (Slot × String)) : String :=
  lineText 0 ("live_loop :" ++ name ++ " do") ++ lineText 1 "idx = downbeat_count.tick()"
    ++ String.join (slots.map fun (s, name) ↦ sampleLineText name s)
    ++ lineText 1 "sleep get[:downbeat_time]" ++ lineText 0 "end"

/-- The script of a track, given the texts of its functions. -/
def scriptText (t : Track) (functions : List String) : String :=
  let slots := t.slots.zip (functionNames t)
  lineText 0 ("samps = '" ++ quoteText t.samplesDir ++ "'")
    ++ lineText 0 ("use_bpm " ++ NumberLayout.plain.single t.bpm)
    ++ lineText 0 ("downbeat_count = range(0, " ++ toString t.stepCount.toNat ++ ", 1)")
    ++ lineText 0 ("set :downbeat_time, " ++ NumberLayout.plain.single t.beatsPerStep)
    ++ String.join functions
    ++ loopText "extracted_samples" (slots.filter (·.1.source.isFolder))
    ++ loopText "sonic_pi_samples" (slots.filter (!·.1.source.isFolder))

/-- The script of a track, in which the negation of a shift wraps. -/
def render (t : Track) : String :=
  scriptText t ((t.slots.zip (functionNames t)).map fun (s, name) ↦ functionText name s)

/-! ### Negations without a check -/

/-- The lines of a rule. That a shift has a negation is taken for granted. -/
def writeRule (depth : Nat) : Rule → Except Overflow String
  | .answer outcome => .ok (lineText depth ("return " ++ outcomeText outcome))
  | .test condition taken otherwise => do
    let taken ← writeRule (depth + 1) taken
    let otherwise ← writeRule (depth + 1) otherwise
    .ok (lineText depth ("if " ++ conditionText condition) ++ taken ++ lineText depth "else"
      ++ otherwise ++ lineText depth "end")
  | .rebase shift rule =>
    match Word.neg? shift with
    | none => .error .negation
    | some offset => do
      let lines ← writeRule depth rule
      .ok (lineText depth ("x = " ++ shiftedText offset) ++ lines)

/-- The script of a track, unless writing it aborts the program. -/
def write (t : Track) : Except Overflow String := do
  let functions ← (t.slots.zip (functionNames t)).mapM fun (s, name) ↦
    (writeRule 1 s.rule).map (defineText name)
  .ok (scriptText t functions)

end StepSequencer.Script
