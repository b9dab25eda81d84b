import StepSequencer.Number.Layout
import StepSequencer.Text.Quoted

/-!
# Tokens of a script

The words, literals and marks that a script is made of. A line break is a token too, since it ends a
statement. A token knows the line it starts on. `Tok.shown` is how a message quotes a token.
-/

namespace StepSequencer.Script

/-- An operator sign. -/
inductive Sign where
  | pow
  | eq
  | ne
  | le
  | ge
  | and
  | or
  | plus
  | minus
  | times
  | over
  | percent
  | lt
  | gt
  | assign
  | bang
  deriving DecidableEq

/-- The written form of the sign. -/
def Sign.text : Sign → String
  | .pow => "**"
  | .eq => "=="
  | .ne => "!="
  | .le => "<="
  | .ge => ">="
  | .and => "&&"
  | .or => "||"
  | .plus => "+"
  | .minus => "-"
  | .times => "*"
  | .over => "/"
  | .percent => "%"
  | .lt => "<"
  | .gt => ">"
  | .assign => "="
  | .bang => "!"

/-- A token. -/
inductive Tok where
  | ident (name : String)
  /-- The name of an option, written with a colon after it. -/
  | label (name : String)
  /-- A symbol, written with a colon before it. -/
  | symbol (name : String)
  | int (value : Int64)
  | float (value : Float)
  | str (value : String)
  | sign (sign : Sign)
  | openParen
  | closeParen
  | openBracket
  | closeBracket
  | comma
  | dot
  | pipe
  | newline
  deriving BEq

/-- The token as a message quotes it. -/
def Tok.shown : Tok → String
  | .ident name => "Ident(" ++ Quoted.quoted name ++ ")"
  | .label name => "Label(" ++ Quoted.quoted name ++ ")"
  | .symbol name => "Symbol(" ++ Quoted.quoted name ++ ")"
  | .int value => "Int(" ++ toString value.toInt ++ ")"
  | .float value => "Float(" ++ NumberLayout.precise.double value ++ ")"
  | .str value => "Str(" ++ Quoted.quoted value ++ ")"
  | .sign s => "Op(" ++ Quoted.quoted s.text ++ ")"
  | .openParen => "LParen"
  | .closeParen => "RParen"
  | .openBracket => "LBracket"
  | .closeBracket => "RBracket"
  | .comma => "Comma"
  | .dot => "Dot"
  | .pipe => "Pipe"
  | .newline => "Newline"

/-- The next token, if there is one, as a message quotes it. -/
def Tok.shown? : Option Tok → String
  | none => "None"
  | some tok => "Some(" ++ tok.shown ++ ")"

/-- Whether the token is a line break. -/
def Tok.isNewline : Tok → Bool
  | .newline => true
  | _ => false

/-- A token and the line it starts on, counted from one. -/
structure Token where
  line : Nat
  tok : Tok
  deriving BEq

end StepSequencer.Script
