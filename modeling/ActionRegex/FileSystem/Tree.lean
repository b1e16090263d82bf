import ActionRegex.FileSystem.Basic

/-!
# File trees

A file system as a value: files and directories by the names that lead to them from the root, which
has no parent but itself. Relative paths start at a working directory, and what commands leave there
is what counts as their result.
-/

namespace ActionRegex

/-- What a name in a directory stands for. -/
inductive FileTree.Entry where
  | directory
  | file (content : String)
  deriving DecidableEq

/-- Files and directories. The root, which no names lead to, is always a directory. -/
structure FileTree where
  entries : List (List String × FileTree.Entry) := []

namespace FileTree

/-- Where the working directory is. -/
def workingPlace : List String := ["tmp", "work"]

/-- The tree whose working directory is empty. It has a null device, as any system. -/
def bare : FileTree :=
  ⟨[(["tmp"], .directory), (workingPlace, .directory), (["dev"], .directory),
    (["dev", "null"], .file "")]⟩

/-! ## Entries -/

/-- What stands at a place. -/
def at? (tree : FileTree) (place : List String) : Option Entry :=
  if place.isEmpty then some .directory else tree.entries.lookup place

/-- Replaces the value of a key or adds it at the end. -/
def putEntry (place : List String) (entry : Entry) :
    List (List String × Entry) → List (List String × Entry)
  | [] => [(place, entry)]
  | (p, e) :: rest =>
    if p = place then (p, entry) :: rest else (p, e) :: putEntry place entry rest

/-- Puts an entry at a place. -/
def put (tree : FileTree) (place : List String) (entry : Entry) : FileTree :=
  ⟨putEntry place entry tree.entries⟩

/-- The place that a segment leads to from a directory. -/
def enter (place : List String) (segment : String) : List String :=
  if Path.isIdle segment then place
  else if segment = ".." then place.dropLast
  else place ++ [segment]

/-- The place that segments lead to. All but the last must lead to directories. -/
def walk (tree : FileTree) (place : List String) : List String → Except FileError (List String)
  | [] => .ok place
  | segment :: rest =>
    match tree.at? place with
    | none => .error .notFound
    | some (.file _) => .error .notDirectory
    | some .directory =>
      if maxNameBytes < segment.utf8ByteSize then .error .nameTooLong
      else tree.walk (enter place segment) rest

/-- Where a path starts. -/
def startOf (path : Path) : List String := if path.absolute then [] else workingPlace

/-- The place that a path names, whether or not something stands there. Slashes at its end count
only if `strict`: then it names nothing but a directory. -/
def locate (tree : FileTree) (strict : Bool) (text : String) : Except FileError (List String) :=
  match pathFault? text with
  | some fault => .error fault
  | none =>
    let path := Path.ofString text
    let segments :=
      if strict then path.segments else (path.segments.reverse.dropWhile (· == "")).reverse
    if text.isEmpty then .error .notFound else tree.walk (startOf path) segments

/-- What a path names. -/
def find (tree : FileTree) (path : String) : Except FileError Entry :=
  (tree.locate true path).bind fun place =>
    match tree.at? place with
    | none => .error .notFound
    | some entry => .ok entry

/-! ## Operations -/

def present (tree : FileTree) (path : String) : Bool := (tree.find path).toOption.isSome

def isDirectory (tree : FileTree) (path : String) : Bool :=
  (tree.find path).toOption = some .directory

def read (tree : FileTree) (path : String) : Except FileError String :=
  (tree.find path).bind fun
    | .directory => .error .isDirectory
    | .file content => .ok content

/-- Replaces or creates a file. -/
def write (tree : FileTree) (path content : String) : Except FileError FileTree :=
  (tree.locate true path).bind fun place =>
    if tree.at? place = some .directory then .error .isDirectory
    else .ok (tree.put place (.file content))

/-- Creates a directory in one that is there. -/
def createDirectory (tree : FileTree) (path : String) : Except FileError FileTree :=
  (tree.locate false path).bind fun place =>
    if (tree.at? place).isSome then .error .alreadyExists
    else .ok (tree.put place .directory)

/-! ## As a file system -/

/-- Applies an operation that changes the tree if it succeeds. -/
def change (operation : FileTree → Except FileError FileTree) :
    StateM FileTree (Except FileError Unit) := fun tree =>
  match operation tree with
  | .ok tree => (.ok (), tree)
  | .error e => (.error e, tree)

/-- The operations on a tree that commands need. -/
def fileSystem : FileSystem (StateM FileTree) where
  present path := fun tree => (tree.present path, tree)
  isDirectory path := fun tree => (tree.isDirectory path, tree)
  read path := fun tree => (tree.read path, tree)
  createDirectory path := change fun tree => tree.createDirectory path
  write path content := change fun tree => tree.write path content

/-! ## Files -/

/-- The directories above a place, from the root down. -/
def above (place : List String) : List (List String) :=
  (List.range (place.length - 1)).map fun n => place.take (n + 1)

/-- Adds a file and the directories above it. -/
def addFile (tree : FileTree) (path content : String) : FileTree :=
  let path := Path.ofString path
  let place := path.segments.foldl enter (startOf path)
  ((above place).foldl (fun tree directory => tree.put directory .directory) tree).put place
    (.file content)

/-- The tree with the given files. -/
def ofFiles (files : List (String × String)) : FileTree :=
  files.foldl (fun tree file => tree.addFile file.1 file.2) bare

/-- The files in the working directory and below it, with their paths from there. -/
def files (tree : FileTree) : List (String × String) :=
  tree.entries.filterMap fun
    | (_, .directory) => none
    | (place, .file content) =>
      (workingPlace.isPrefixOf? place).map fun names => ("/".intercalate names, content)

/-- The files that are new or have another content than before. -/
def changedFiles (before after : FileTree) : List (String × String) :=
  after.files.filter fun file => !before.files.contains file

end FileTree

end ActionRegex
