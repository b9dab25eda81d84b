import StepSequencer.Json.Number
import StepSequencer.Json.Reader
import StepSequencer.Number.Layout
import StepSequencer.Number.Word

/-!
# Encoding and decoding by type

The JSON form of simple values, and the two shapes that all others are made of. A record is an
object with its fields in any order, of which unknown ones do not matter and known ones must not
repeat; or an array of its fields in order, of which the last ones may be missing. A variant is its
name alone, or an object whose one member is named for it.

Nesting is limited: a decoder is given the room that is left, the number of arrays and objects that
may still be opened inside one another, and every one it opens takes one away.
-/

namespace StepSequencer

/-- How deep arrays and objects may be nested in one another. -/
def maxNesting : Nat := 127

namespace JsonValue

/-! ### Simple values -/

/-- A 32-bit float. What is not finite has no literal. -/
def ofSingle (x : Float32) : JsonValue :=
  if x.isFinite then .number (NumberLayout.json.single x) else .null

/-- A 64-bit float. What is not finite has no literal. -/
def ofDouble (x : Float) : JsonValue :=
  if x.isFinite then .number (NumberLayout.json.double x) else .null

/-- A word. -/
def ofWord (n : Int64) : JsonValue := .int n.toInt

/-- The text. -/
def toText? : JsonValue → Option String
  | .string text => text
  | _ => none

/-- The truth value. -/
def toBool? : JsonValue → Option Bool
  | .bool value => some value
  | _ => none

/-- The number. -/
def toNumber? : JsonValue → Option JsonNumber
  | .number literal => JsonNumber.ofString literal
  | _ => none

/-- The whole number between two bounds, the second one excluded. -/
def toWhole? (low high : Int) (v : JsonValue) : Option Int :=
  match v.toNumber? with
  | some (.whole n) => if low ≤ n ∧ n < high then some n else none
  | _ => none

/-- The word. -/
def toWord? (v : JsonValue) : Option Int64 := (v.toWhole? (-2 ^ 63) (2 ^ 63)).map Int64.ofInt

/-- The 32-bit float closest to the number; a number too large is infinite. -/
def toSingle? (v : JsonValue) : Option Float32 :=
  match v.toNumber? with
  | some (.whole n) =>
    if n < 0 then some (Int64.ofInt n).toFloat32 else some n.toNat.toUInt64.toFloat32
  | some (.real x) => some (Binary.ofDouble x).toSingle
  | none => none

/-! ### Records and variants -/

/-- The values of the members with a name. -/
def valuesOf (name : String) (members : List (Option String × JsonValue)) : List JsonValue :=
  (members.filter (·.1 == some name)).map (·.2)

/-- The fields of a record, in the order of their names; one that is missing is `none`. -/
def fields? (names : List String) : JsonValue → Option (List (Option JsonValue))
  | .array items =>
    if items.length ≤ names.length then
      some (items.map some ++ List.replicate (names.length - items.length) none)
    else none
  | .object members =>
    if members.all (·.1.isSome) then
      names.mapM fun name ↦
        match valuesOf name members with
        | [] => some none
        | [v] => some (some v)
        | _ => none
    else none
  | _ => none

/-- A field that may be missing: it then has a value of its own, but given, it must decode. -/
def optionalField {α : Type} (decode : JsonValue → Option α) (missing : α) :
    Option JsonValue → Option α
  | none => some missing
  | some v => decode v

/-- The name of a variant that carries nothing. -/
def unitVariant? : Nat → JsonValue → Option String
  | _, .string (some name) => some name
  | _ + 1, .object [(some name, .null)] => some name
  | _, _ => none

end JsonValue

end StepSequencer
