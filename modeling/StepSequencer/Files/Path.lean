/-!
# Paths

A path names a file by the folders on the way to it, with slashes between. Empty parts and parts
that stay in place do not count, apart from a leading `.`.
-/

namespace StepSequencer.Path

/-- The parts of a path. -/
def parts (path : String) : List String :=
  let all := path.splitOn "/"
  let kept := all.filter fun part ↦ part != "" && part != "."
  if all.head? == some "." then "." :: kept else kept

/-- The file's name, unless the path ends in a step that has no name. -/
def fileName? (path : String) : Option String :=
  (parts path).getLast?.filter fun name ↦ name != "." && name != ".."

/-- The part of a name before its last dot, and the part after it. A dot that the name begins with
does not count. -/
def splitName (name : String) : String × Option String :=
  let back := name.toList.reverse
  let after := back.takeWhile (· != '.')
  match back.dropWhile (· != '.') with
  | '.' :: before =>
    if before.isEmpty then (name, none)
    else (String.ofList before.reverse, some (String.ofList after.reverse))
  | _ => (name, none)

/-- The file's name without its extension. -/
def stem (path : String) : String := ((fileName? path).map fun name ↦ (splitName name).1).getD ""

/-- Whether the file's name has an extension, given in lower case. Capital letters
count as small. -/
def hasExtension (path extension : String) : Bool :=
  match (fileName? path).bind fun name ↦ (splitName name).2 with
  | some found => found.toList.map Char.toLower == extension.toList
  | none => false

/-- The folder that a path lies in. It is empty for a mere name. -/
def parent? (path : String) : Option String :=
  let parts := parts path
  if parts.isEmpty then none
  else some ((if path.startsWith "/" then "/" else "") ++ "/".intercalate parts.dropLast)

/-- The path of a name within a folder. -/
def join (folder name : String) : String :=
  if folder == "" || folder.endsWith "/" then folder ++ name else folder ++ "/" ++ name

end StepSequencer.Path
