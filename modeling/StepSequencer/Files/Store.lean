/-!
# File stores

What the library needs of a place for files. The host's file system is one, and so is a tree of
files held in memory.
-/

namespace StepSequencer

/-- Why a file cannot be used. -/
inductive FileError where
  | notFound
  | isFolder
  | notFolder
  | exists
  | notText
  /-- Any other reason, in the words of the store. -/
  | other (reason : String)
  deriving DecidableEq

/-- The wording of the error. -/
def FileError.message : FileError → String
  | .notFound => "No such file or directory (os error 2)"
  | .isFolder => "Is a directory (os error 21)"
  | .notFolder => "Not a directory (os error 20)"
  | .exists => "File exists (os error 17)"
  | .notText => "stream did not contain valid UTF-8"
  | .other reason => reason

/-- The operations of a store, whose effects are those of `m`. -/
structure FileStore (m : Type → Type) where
  read : String → m (Except FileError ByteArray)
  /-- Makes a folder and those on the way to it, as far as they are missing. -/
  makeFolders : String → m (Except FileError Unit)
  /-- Writes a file, in place of what it held. -/
  write : String → ByteArray → m (Except FileError Unit)

/-- What a folder holds under one name. -/
structure FolderEntry where
  name : String
  isFile : Bool

/-- A store whose folders can be listed. -/
structure FolderStore (m : Type → Type) extends FileStore m where
  list : String → m (Except FileError (List FolderEntry))

end StepSequencer
