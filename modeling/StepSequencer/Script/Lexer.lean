import StepSequencer.Number.Reading
import StepSequencer.Number.Word
import StepSequencer.Script.Token

/-!
# From text to tokens

The lexeme at the head of a text is the longest that fits there: `lexeme` gives what it is and how
many characters it has after its first. `tokensFrom` cuts a text into lexemes one after the other,
counting lines, and `tokenize` joins neighbouring line breaks and ends the last line.

Blanks and comments are lexemes without a token. A semicolon is a line break that starts no new
line.
-/

namespace StepSequencer.Script

/-- Why a text has no tokens, and the line on which that shows. -/
inductive LexError where
  /-- No token begins like this. -/
  | unexpected (line : Nat) (text : String)
  /-- A whole number that no word holds. -/
  | numberTooLarge (line : Nat) (text : String)

/-- The wording of the error. -/
def LexError.message : LexError → String
  | .unexpected line text => "line " ++ toString line ++ ": unexpected " ++ Quoted.quoted text
  | .numberTooLarge line text =>
    "line " ++ toString line ++ ": bad number " ++ text
      ++ ": number too large to fit in target type"

/-- What a lexeme is. -/
inductive LexemeKind where
  /-- A blank or a comment. -/
  | skipped
  | token (tok : Tok)
  | unexpected
  | numberTooLarge

/-! ### Character classes -/

/-- Whether the character begins a name. -/
def startsName (c : Char) : Bool := c.isAlpha || c == '_'

/-- Whether the character goes on with a name. -/
def continuesName (c : Char) : Bool := c.isAlphanum || c == '_'

/-- Whether the character goes on with a whole number; underscores group its digits. -/
def continuesNumber (c : Char) : Bool := c.isDigit || c == '_'

/-! ### Lexemes of several characters -/

/-- The text between quotes that follows an opening `quote`, and whether it is closed. A backslash
keeps the next character from closing it; at the end of the text a backslash with no character to
keep is left out. -/
def quotedBody (quote : Char) : List Char → List Char × Bool
  | [] => ([], false)
  | ['\\'] => ([], false)
  | '\\' :: c :: cs =>
    let (body, closed) := quotedBody quote cs
    ('\\' :: c :: body, closed)
  | c :: cs =>
    if c = quote then ([], true)
    else
      let (body, closed) := quotedBody quote cs
      (c :: body, closed)

/-- The text that a quoted body stands for. A backslash before a backslash or the quote stands for
that character; between double quotes there are also short forms for a line feed and a tab. Any
other backslash stands for itself. -/
def unescape (quote : Char) : List Char → List Char
  | '\\' :: c :: cs =>
    if c = '\\' || c = quote then c :: unescape quote cs
    else if quote = '"' && c = 'n' then '\n' :: unescape quote cs
    else if quote = '"' && c = 't' then '\t' :: unescape quote cs
    else '\\' :: c :: unescape quote cs
  | c :: cs => c :: unescape quote cs
  | [] => []

/-- A name, a name with a question mark, or a label. -/
def nameLexeme (c : Char) (cs : List Char) : LexemeKind × Nat :=
  let name := c :: cs.takeWhile continuesName
  match cs.dropWhile continuesName with
  | '?' :: _ => (.token (.ident (String.ofList (name ++ ['?']))), name.length)
  | ':' :: _ => (.token (.label (String.ofList name)), name.length)
  | _ => (.token (.ident (String.ofList name)), name.length - 1)

/-- A symbol, after its colon. -/
def symbolLexeme (cs : List Char) : LexemeKind × Nat :=
  if cs.head?.any startsName then
    let name := cs.takeWhile continuesName
    match cs.dropWhile continuesName with
    | '?' :: _ => (.token (.symbol (String.ofList (name ++ ['?']))), name.length + 1)
    | _ => (.token (.symbol (String.ofList name)), name.length)
  else (.unexpected, 0)

/-- A whole number, or a number with a point between digits. -/
def numberLexeme (c : Char) (cs : List Char) : LexemeKind × Nat :=
  let run := c :: cs.takeWhile continuesNumber
  let digits := run.filter Char.isDigit
  let whole : LexemeKind × Nat :=
    match Word.ofInt? (readDigits digits) with
    | some value => (.token (.int value), run.length - 1)
    | none => (.numberTooLarge, run.length - 1)
  match cs.dropWhile continuesNumber with
  | '.' :: rest =>
    let fraction := rest.takeWhile Char.isDigit
    if fraction.isEmpty then whole
    else
      let value := (Decimal.ofDigits digits fraction 0).toDouble
      (.token (.float value), run.length + fraction.length)
  | _ => whole

/-- A quoted text, after its opening quote. -/
def quotedLexeme (quote : Char) (cs : List Char) : LexemeKind × Nat :=
  match quotedBody quote cs with
  | (body, true) => (.token (.str (String.ofList (unescape quote body))), body.length + 1)
  | (body, false) => (.unexpected, body.length)

/-- The lexeme at the head of a text, and how many characters it has after the first. -/
def lexeme (c : Char) (cs : List Char) : LexemeKind × Nat :=
  match c, cs with
  | ' ', _ | '\t', _ | '\r', _ | '\x0c', _ => (.skipped, 0)
  | '#', _ => (.skipped, (cs.takeWhile (· != '\n')).length)
  | '\n', _ | ';', _ => (.token .newline, 0)
  | '(', _ => (.token .openParen, 0)
  | ')', _ => (.token .closeParen, 0)
  | '[', _ => (.token .openBracket, 0)
  | ']', _ => (.token .closeBracket, 0)
  | ',', _ => (.token .comma, 0)
  | '.', _ => (.token .dot, 0)
  | '*', '*' :: _ => (.token (.sign .pow), 1)
  | '=', '=' :: _ => (.token (.sign .eq), 1)
  | '!', '=' :: _ => (.token (.sign .ne), 1)
  | '<', '=' :: _ => (.token (.sign .le), 1)
  | '>', '=' :: _ => (.token (.sign .ge), 1)
  | '&', '&' :: _ => (.token (.sign .and), 1)
  | '|', '|' :: _ => (.token (.sign .or), 1)
  | '+', _ => (.token (.sign .plus), 0)
  | '-', _ => (.token (.sign .minus), 0)
  | '*', _ => (.token (.sign .times), 0)
  | '/', _ => (.token (.sign .over), 0)
  | '%', _ => (.token (.sign .percent), 0)
  | '<', _ => (.token (.sign .lt), 0)
  | '>', _ => (.token (.sign .gt), 0)
  | '=', _ => (.token (.sign .assign), 0)
  | '!', _ => (.token (.sign .bang), 0)
  | '|', _ => (.token .pipe, 0)
  | ':', _ => symbolLexeme cs
  | '\'', _ => quotedLexeme '\'' cs
  | '"', _ => quotedLexeme '"' cs
  | _, _ =>
    if startsName c then nameLexeme c cs
    else if c.isDigit then numberLexeme c cs
    else (.unexpected, 0)

/-! ### The whole text -/

/-- The tokens of a text that starts on a given line. -/
def tokensFrom (line : Nat) : List Char → Except LexError (List Token)
  | [] => .ok []
  | c :: cs =>
    let (kind, length) := lexeme c cs
    let text := c :: cs.take length
    let next := line + text.count '\n'
    match kind with
    | .skipped => tokensFrom next (cs.drop length)
    | .token tok => do
      let rest ← tokensFrom next (cs.drop length)
      .ok (⟨line, tok⟩ :: rest)
    | .unexpected => .error (.unexpected line (String.ofList text))
    | .numberTooLarge => .error (.numberTooLarge line (String.ofList text))
termination_by cs => cs.length
decreasing_by all_goals simp only [List.length_drop, List.length_cons]; omega

/-- The tokens without the line breaks that follow another one; `broken` says that a line break, or
the start of the text, comes just before. -/
def joinBreaks (broken : Bool) : List Token → List Token
  | [] => []
  | t :: ts =>
    if t.tok.isNewline then
      if broken then joinBreaks true ts else t :: joinBreaks true ts
    else t :: joinBreaks false ts

/-- The tokens of a script. The last line ends even without a line break in the text. -/
def tokenize (text : String) : Except LexError (List Token) := do
  let chars := text.toList
  let tokens ← tokensFrom 1 chars
  .ok (joinBreaks true (tokens ++ [⟨1 + chars.count '\n', .newline⟩]))

end StepSequencer.Script
