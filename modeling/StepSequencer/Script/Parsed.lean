import StepSequencer.Script.Token

/-!
# Parse results and their errors

A parser takes the tokens still to be read and answers with a value and the tokens left over. A
`Parsed` result also proves that fewer tokens are left than a given bound, so that every parser here
is seen to end. `ParseError` lists what can be wrong with a token sequence.
-/

namespace StepSequencer.Script

/-- A value and the tokens left after it, of which there are fewer than `bound`. -/
structure Parsed (bound : Nat) (α : Type) where
  value : α
  rest : List Token
  shorter : rest.length < bound

/-- One token stands before the rest. -/
theorem length_lt_succ (ts : List Token) : ts.length < ts.length + 1 := Nat.lt_succ_self _

theorem length_le_succ (ts : List Token) : ts.length ≤ ts.length + 1 := Nat.le_succ _

namespace Parsed

variable {α β : Type} {m n : Nat}

/-- The result under a larger bound. -/
def weaken (p : Parsed m α) (h : m ≤ n) : Parsed n α :=
  ⟨p.value, p.rest, Nat.lt_of_lt_of_le p.shorter h⟩

/-- The result with its value changed. -/
def map (f : α → β) (p : Parsed n α) : Parsed n β :=
  ⟨f p.value, p.rest, p.shorter⟩

end Parsed

/-- What a parser waited for. -/
inductive Expected where
  | mark (text : String)
  | word (text : String)
  | commaOrClose
  | parameterName
  | methodName
  | symbolName
  | expression

/-- How a message calls it. -/
def Expected.text : Expected → String
  | .mark text | .word text => "`" ++ text ++ "`"
  | .commaOrClose => "`,` or `)`"
  | .parameterName => "parameter name"
  | .methodName => "method name"
  | .symbolName => "a :name"
  | .expression => "an expression"

/-- Why tokens are no script, and the line on which that shows. -/
inductive ParseError where
  | expected (line : Nat) (what : Expected) (found : Option Tok)
  | unexpectedWord (line : Nat) (word : String)
  | afterStatement (line : Nat) (found : Option Tok)
  | positionalAfterOptions (line : Nat)
  | elseWithoutEnd (line : Nat)
  | ifWithoutEnd (line : Nat)
  | wordInBody (line : Nat) (word body : String)
  | bodyWithoutEnd (line : Nat) (body : String)

/-- The line on which the error shows. -/
def ParseError.line : ParseError → Nat
  | .expected line .. | .unexpectedWord line .. | .afterStatement line ..
  | .positionalAfterOptions line | .elseWithoutEnd line | .ifWithoutEnd line
  | .wordInBody line .. | .bodyWithoutEnd line .. => line

/-- What is wrong, without the line. -/
def ParseError.complaint : ParseError → String
  | .expected _ what found => "expected " ++ what.text ++ ", found " ++ Tok.shown? found
  | .unexpectedWord _ word => "unexpected `" ++ word ++ "`"
  | .afterStatement _ found => "unexpected " ++ Tok.shown? found ++ " after statement"
  | .positionalAfterOptions _ => "positional argument after options"
  | .elseWithoutEnd _ => "`else` without `end`"
  | .ifWithoutEnd _ => "`if` without `end`"
  | .wordInBody _ word body => "unexpected `" ++ word ++ "` in " ++ body
  | .bodyWithoutEnd _ body => body ++ " without `end`"

/-- The wording of the error. -/
def ParseError.message (e : ParseError) : String :=
  "line " ++ toString e.line ++ ": " ++ e.complaint

/-- What a parser answers with, or why it does not. -/
abbrev Attempt := Except ParseError

/-- The line of the next token, or the last line of the script when there is none. -/
def lineAt (lastLine : Nat) : List Token → Nat
  | [] => lastLine
  | t :: _ => t.line

/-- The next token. -/
def next? (ts : List Token) : Option Tok := ts.head?.map (·.tok)

end StepSequencer.Script
