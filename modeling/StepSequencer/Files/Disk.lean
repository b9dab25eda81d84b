import StepSequencer.Files.Path
import StepSequencer.Files.Store

/-!
# Disks in memory

A `Disk` is a tree of files as a value. Its paths start at the topmost folder. A step upwards from
there stays in place.
-/

namespace StepSequencer

/-- A file or a folder. -/
inductive DiskNode where
  | file (bytes : ByteArray)
  | folder

/-- The place of a node, as the names on the way to it. -/
abbrev Place := List String

/-- The nodes of a tree of files, without the topmost folder. -/
structure Disk where
  nodes : List (Place × DiskNode)

namespace Disk

/-- The disk without files. -/
def empty : Disk := ⟨[]⟩

/-- What is at a place. -/
def node? (d : Disk) (place : Place) : Option DiskNode :=
  if place.isEmpty then some .folder else d.nodes.lookup place

/-- Whether there is a folder at a place. -/
def isFolder (d : Disk) (place : Place) : Bool :=
  match d.node? place with
  | some .folder => true
  | _ => false

/-- The disk with a node put at a place. -/
def put (d : Disk) (place : Place) (node : DiskNode) : Disk :=
  ⟨(place, node) :: d.nodes.filter fun (other, _) ↦ other != place⟩

/-- Follows the parts of a path from a place on. Every part needs a folder to start from. -/
def walk (d : Disk) (here : Place) : List String → Except FileError Place
  | [] => .ok here
  | part :: rest =>
    if !d.isFolder here then .error .notFolder
    else if part == "" || part == "." then d.walk here rest
    else if part == ".." then d.walk here.dropLast rest
    else if (d.node? (here ++ [part])).isSome then d.walk (here ++ [part]) rest
    else .error .notFound

/-- The place of a path. -/
def locate (d : Disk) (path : String) : Except FileError Place :=
  if path == "" then .error .notFound else d.walk [] (path.splitOn "/")

/-- The place that a path names in an existing folder, with its last part. -/
def locateNew (d : Disk) (path : String) : Except FileError (Place × String) := do
  match (path.splitOn "/").reverse.dropWhile (· == "") with
  | [] => throw (if path == "" then .notFound else .isFolder)
  | last :: before =>
    let folder ← d.walk [] before.reverse
    unless d.isFolder folder do
      throw .notFolder
    return (folder, last)

/-! ### Reading -/

/-- The bytes of a file. -/
def read (d : Disk) (path : String) : Except FileError ByteArray := do
  match d.node? (← d.locate path) with
  | some (.file bytes) => return bytes
  | _ => throw .isFolder

/-- What a folder holds. -/
def list (d : Disk) (path : String) : Except FileError (List FolderEntry) := do
  let folder ← d.locate path
  unless d.isFolder folder do
    throw .notFolder
  return d.nodes.filterMap fun (place, node) ↦
    match place.reverse, node with
    | name :: up, .file _ => if up.reverse == folder then some ⟨name, true⟩ else none
    | name :: up, .folder => if up.reverse == folder then some ⟨name, false⟩ else none
    | [], _ => none

/-! ### Writing -/

/-- Makes one folder. -/
def makeFolder (d : Disk) (path : String) : Except FileError Disk := do
  let (folder, name) ← d.locateNew path
  if name == "." || name == ".." || (d.node? (folder ++ [name])).isSome then
    throw .exists
  return d.put (folder ++ [name]) .folder

/-- Makes one folder unless there is one. -/
def ensureFolder (d : Disk) (path : String) : Except FileError Disk :=
  match d.makeFolder path with
  | .ok d => .ok d
  | .error e =>
    match d.locate path with
    | .ok place => if d.isFolder place then .ok d else .error e
    | .error _ => .error e

/-- Makes the folder that is named by parts in reverse, after those on the way to it if it cannot be
made without them. -/
def makeFoldersReversed (d : Disk) : List String → Except FileError Disk
  | [] => .ok d
  | name :: up =>
    let path := "/".intercalate (name :: up).reverse
    match d.makeFolder path with
    | .error .notFound => do (← d.makeFoldersReversed up).ensureFolder path
    | _ => d.ensureFolder path

/-- Makes a folder and those on the way to it, as far as they are missing. -/
def makeFolders (d : Disk) (path : String) : Except FileError Disk :=
  d.makeFoldersReversed (Path.parts path).reverse

/-- Writes a file. A path that ends in a slash names no file. -/
def write (d : Disk) (path : String) (bytes : ByteArray) : Except FileError Disk := do
  let (folder, name) ← d.locateNew path
  if name == "." || name == ".." || path.endsWith "/" || d.isFolder (folder ++ [name]) then
    throw .isFolder
  return d.put (folder ++ [name]) (.file bytes)

/-- The effect of a change that can fail. -/
def change (f : Disk → Except FileError Disk) : StateM Disk (Except FileError Unit) :=
  modifyGet fun d ↦
    match f d with
    | .ok changed => (.ok (), changed)
    | .error e => (.error e, d)

/-- The disk as a store. -/
def store : FolderStore (StateM Disk) where
  read path := return (← get).read path
  list path := return (← get).list path
  makeFolders path := change fun d ↦ d.makeFolders path
  write path bytes := change fun d ↦ d.write path bytes

end Disk

end StepSequencer
