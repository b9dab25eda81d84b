import StepSequencer.Text.Unprintable

/-!
# Quoted text

How a text is shown inside a message: between double quotes, with a backslash before quotes and
backslashes, short forms for the usual control characters, and the code point of every other
character that would not be seen.
-/

namespace StepSequencer.Quoted

/-- The escaped form of one character. -/
def escape (c : Char) : List Char :=
  match c with
  | '"' => ['\\', '"']
  | '\\' => ['\\', '\\']
  | '\n' => ['\\', 'n']
  | '\r' => ['\\', 'r']
  | '\t' => ['\\', 't']
  | '\x00' => ['\\', '0']
  | c =>
    if 0x20 ≤ c.toNat && c.toNat < 0x7f then [c]
    else if Unprintable.isUnprintable c then
      ['\\', 'u', '\x7b'] ++ Nat.toDigits 16 c.toNat ++ ['\x7d']
    else [c]

/-- The text between quotes, escaped. -/
def quoted (s : String) : String :=
  String.ofList (['"'] ++ s.toList.flatMap escape ++ ['"'])

end StepSequencer.Quoted
