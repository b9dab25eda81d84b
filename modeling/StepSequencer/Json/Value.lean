/-!
# JSON values

A JSON value as it is written: numbers stay literals, members keep their order and may repeat. A
text is absent where an escape names one half of a surrogate pair without the other; such a text is
well formed, but stands for nothing. `compact` and `pretty` write a value.
-/

namespace StepSequencer

/-- A JSON value. -/
inductive JsonValue where
  | null
  | bool (value : Bool)
  | number (literal : String)
  | string (text : Option String)
  | array (items : List JsonValue)
  | object (members : List (Option String × JsonValue))

namespace JsonValue

/-! ### Building values -/

/-- A text. -/
def text (s : String) : JsonValue := .string (some s)

/-- A whole number. -/
def int (n : Int) : JsonValue := .number (toString n)

/-- An object with the given members. -/
def record (members : List (String × JsonValue)) : JsonValue :=
  .object (members.map fun (key, value) ↦ (some key, value))

/-- An object with one member. -/
def tagged (key : String) (value : JsonValue) : JsonValue := record [(key, value)]

/-! ### Writing -/

/-- The written form of a character of a text. -/
def escape (c : Char) : List Char :=
  match c with
  | '"' => ['\\', '"']
  | '\\' => ['\\', '\\']
  | '\x08' => ['\\', 'b']
  | '\x0c' => ['\\', 'f']
  | '\n' => ['\\', 'n']
  | '\r' => ['\\', 'r']
  | '\t' => ['\\', 't']
  | c =>
    if c.toNat < 0x20 then
      ['\\', 'u', '0', '0', Nat.digitChar (c.toNat / 16), Nat.digitChar (c.toNat % 16)]
    else [c]

/-- The written form of a text. -/
def quote (s : String) : List Char := ['"'] ++ s.toList.flatMap escape ++ ['"']

mutual

/-- The value without any blanks. -/
def compactChars : JsonValue → List Char
  | .null => "null".toList
  | .bool value => (toString value).toList
  | .number literal => literal.toList
  | .string text => quote (text.getD "")
  | .array items => ['['] ++ compactItems items ++ [']']
  | .object members => ['\x7b'] ++ compactMembers members ++ ['\x7d']

/-- Items with commas between them. -/
def compactItems : List JsonValue → List Char
  | [] => []
  | [v] => v.compactChars
  | v :: w :: vs => v.compactChars ++ [','] ++ compactItems (w :: vs)

/-- Members with commas between them. -/
def compactMembers : List (Option String × JsonValue) → List Char
  | [] => []
  | [(key, v)] => quote (key.getD "") ++ [':'] ++ v.compactChars
  | (key, v) :: m :: ms =>
    quote (key.getD "") ++ [':'] ++ v.compactChars ++ [','] ++ compactMembers (m :: ms)

end

/-- The value on one line, without blanks. -/
def compact (v : JsonValue) : String := String.ofList v.compactChars

/-- A line break and the indentation of a line. -/
def indented (depth : Nat) : List Char := '\n' :: List.replicate (2 * depth) ' '

mutual

/-- The value over several lines; `depth` is the indentation of the line it starts on. -/
def prettyChars (depth : Nat) : JsonValue → List Char
  | .null => "null".toList
  | .bool value => (toString value).toList
  | .number literal => literal.toList
  | .string text => quote (text.getD "")
  | .array [] => "[]".toList
  | .object [] => ['\x7b', '\x7d']
  | .array items => ['['] ++ prettyItems (depth + 1) items ++ indented depth ++ [']']
  | .object members => ['\x7b'] ++ prettyMembers (depth + 1) members ++ indented depth ++ ['\x7d']

/-- Items, each on a line of its own. -/
def prettyItems (depth : Nat) : List JsonValue → List Char
  | [] => []
  | [v] => indented depth ++ v.prettyChars depth
  | v :: w :: vs => indented depth ++ v.prettyChars depth ++ [','] ++ prettyItems depth (w :: vs)

/-- Members, each on a line of its own. -/
def prettyMembers (depth : Nat) : List (Option String × JsonValue) → List Char
  | [] => []
  | [(key, v)] => indented depth ++ quote (key.getD "") ++ [':', ' '] ++ v.prettyChars depth
  | (key, v) :: m :: ms =>
    indented depth ++ quote (key.getD "") ++ [':', ' '] ++ v.prettyChars depth ++ [',']
      ++ prettyMembers depth (m :: ms)

end

/-- The value over several lines, indented by two blanks a level. -/
def pretty (v : JsonValue) : String := String.ofList (v.prettyChars 0)

end JsonValue

end StepSequencer
