/-!
# Files

Files are read and written whole. What a program does with files is stated over any file system: the
one of the running program, or a directory that is a plain value.
-/

namespace Microcomputer

/-- Why a file can be neither read nor written. -/
inductive FileError where
  | noSuchFile
  | isDirectory
  | notDirectory
  | nameTooLong
  | other (reason : String)
deriving DecidableEq, Repr

/-- The wording of a file error. -/
def FileError.message : FileError → String
  | noSuchFile => "No such file or directory (os error 2)"
  | isDirectory => "Is a directory (os error 21)"
  | notDirectory => "Not a directory (os error 20)"
  | nameTooLong => "File name too long (os error 36)"
  | other reason => reason

/-- Reading and writing files by path in a monad. -/
structure FileSystem (m : Type → Type) where
  read : String → m (Except FileError (List UInt8))
  write : String → List UInt8 → m (Except FileError Unit)

/-! ## Places and the paths to them -/

/-- The place of a file, one name for each level. The names lead down from the working directory, unless
the first ones are levels up or the root `/`. -/
abbrev Path := List String

namespace Path

/-- The bytes that a name of a file or directory can have. -/
def maxNameSize : Nat := 255

/-- The bytes that a whole path can have. -/
def maxSize : Nat := 4095

/-- The names that a path is written with, one after the other. Separators in a row count once, and one at
the start stands for the root. -/
def names (text : String) : List String :=
  let levels := (text.splitOn "/").filter (· ≠ "")
  if text.startsWith "/" then "/" :: levels else levels

/-- The place that a name leads to: one dot stays, two dots go one level up, and above the root lies the
root itself. -/
def enter (path : Path) (name : String) : Path :=
  if name = "." then path
  else if name = ".." then
    if path = ["/"] then path
    else if path.all (· = "..") then path ++ [".."]
    else path.dropLast
  else path ++ [name]

/-- The place that names lead to from the working directory. -/
def ofNames (names : List String) : Path :=
  names.foldl enter []

/-- The root, the working directory, or a level above it. They exist whatever files there are. -/
def isAnchor (path : Path) : Bool :=
  path = ["/"] || path.all (· = "..")

end Path

/-! ## A directory as a value -/

/-- The files that are known, each at its place. But for the anchors, a directory exists as far as a file lies
in it. -/
structure Directory where
  files : List (Path × List UInt8) := []
deriving DecidableEq, Repr

namespace Directory

variable (dir : Directory)

/-- The contents of the file at a place. -/
def find? (path : Path) : Option (List UInt8) :=
  (dir.files.find? fun file => file.1 == path).map Prod.snd

/-- There is a directory at the place. -/
def hasDirectory (path : Path) : Bool :=
  path.isAnchor || dir.files.any fun file => path.isPrefixOf file.1 && path != file.1

/-- The directory with a file at a place, instead of the one that was there. -/
def put (path : Path) (contents : List UInt8) : Directory where
  files := (path, contents) :: dir.files.filter fun file => file.1 != path

/-- The place that a name leads to from another. Only a directory can be left by a name, even by one that is
too long or that stays. -/
def enter (path : Path) (name : String) : Except FileError Path :=
  if !dir.hasDirectory path then
    .error (if (dir.find? path).isSome then .notDirectory else .noSuchFile)
  else if Path.maxNameSize < name.utf8ByteSize then .error .nameTooLong
  else .ok (path.enter name)

/-- The place that names lead to from the working directory, one after the other. -/
def follow (names : List String) : Except FileError Path :=
  names.foldlM dir.enter []

/-- The names of a path that can be followed. -/
def namesOf (text : String) : Except FileError (List String) :=
  if text = "" then .error .noSuchFile
  else if Path.maxSize < text.utf8ByteSize then .error .nameTooLong
  else .ok (Path.names text)

/-- Reads the file at a path. A separator at the end asks for a directory, as a last name that stays does. -/
def read (text : String) : Except FileError (List UInt8) := do
  let names ← namesOf text
  let path ← dir.follow (if text.endsWith "/" then names ++ ["."] else names)
  if dir.hasDirectory path then throw .isDirectory
  match dir.find? path with
  | some contents => return contents
  | none => throw .noSuchFile

/-- Writes a file in a directory that exists. A path with a separator at the end names a directory, whatever
lies there. -/
def write (text : String) (contents : List UInt8) : Except FileError Directory := do
  let names ← namesOf text
  if text.endsWith "/" then
    let _ ← dir.follow (names.dropLast ++ ["."])
    throw .isDirectory
  let path ← dir.follow names
  if dir.hasDirectory path then throw .isDirectory
  return dir.put path contents

end Directory

/-- The file system of a directory, which writing changes. -/
def FileSystem.ofDirectory : FileSystem (StateM Directory) where
  read path := do
    return (← get).read path
  write path contents := do
    match (← get).write path contents with
    | .ok dir =>
      set dir
      return .ok ()
    | .error e => return .error e

end Microcomputer
