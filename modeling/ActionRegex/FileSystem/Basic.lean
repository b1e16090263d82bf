import ActionRegex.FileSystem.Path

/-!
# File systems

The operations on files that commands need. They are a record over a monad, so that a command can be
run on a tree of files that is a plain value as well as on a disk.
-/

namespace ActionRegex

/-- Why an operation on files fails. -/
inductive FileError where
  | notFound
  | alreadyExists
  | notDirectory
  | isDirectory
  /-- A name or a path has too many bytes. -/
  | nameTooLong
  /-- A path holds the character that ends paths in system calls. -/
  | nullCharacter
  /-- Any other cause, in the words of the system. -/
  | other (text : String)
  deriving DecidableEq

def FileError.message : FileError → String
  | notFound => "No such file or directory (os error 2)"
  | alreadyExists => "File exists (os error 17)"
  | notDirectory => "Not a directory (os error 20)"
  | isDirectory => "Is a directory (os error 21)"
  | nameTooLong => "File name too long (os error 36)"
  | nullCharacter => "file name contained an unexpected NUL byte"
  | other text => text

/-- The most bytes of a path. -/
def maxPathBytes : Nat := 4095

/-- The most bytes of a name in a directory. -/
def maxNameBytes : Nat := 255

/-- Why a path names nothing on any system, if that is so. -/
def pathFault? (path : String) : Option FileError :=
  if path.toList.contains '\x00' then some .nullCharacter
  else if maxPathBytes < path.utf8ByteSize then some .nameTooLong
  else none

/-- Operations on files. Paths are relative to the working directory. -/
structure FileSystem (m : Type → Type) where
  /-- Whether there is a file or directory. -/
  present : String → m Bool
  isDirectory : String → m Bool
  /-- The content of a file. -/
  read : String → m (Except FileError String)
  /-- Creates a directory in one that is there. -/
  createDirectory : String → m (Except FileError Unit)
  /-- Creates a file or replaces its content. -/
  write : String → String → m (Except FileError Unit)

namespace FileSystem

variable {m : Type → Type} [Monad m]

/-- A directory that is there already is as good as a new one. -/
def orPresent (fs : FileSystem m) (path : Path) (result : Except FileError Unit) :
    m (Except FileError Unit) := do
  match result with
  | .ok _ => return .ok ()
  | .error e => if ← fs.isDirectory path.toString then return .ok () else return .error e

/-- Creates a directory and those above it that are missing. The parents come first, so this ends
because each has fewer segments. -/
def createDirectories (fs : FileSystem m) (path : Path) : m (Except FileError Unit) := do
  if path.isEmpty then return .ok ()
  else
    match ← fs.createDirectory path.toString with
    | .error .notFound =>
      match _h : path.parent? with
      | none => return .error .notFound
      | some parent =>
        match ← fs.createDirectories parent with
        | .error e => return .error e
        | .ok _ => fs.orPresent path (← fs.createDirectory path.toString)
    | result => fs.orPresent path result
termination_by path.segments.length
decreasing_by exact Path.length_parent?_lt _h

end FileSystem

end ActionRegex
