import ActionRegex.CommandLine.Command

/-!
# The program

Runs a command line on the disk and prints its outcome.
-/

open ActionRegex

namespace ActionRegex.Disk

/-- The number that the system gives to an operation on a directory as if it were a file. -/
def directoryCode : UInt32 := 21

/-- The cause of a failed operation. -/
def causeOf (error : IO.Error) : FileError :=
  match error with
  | .noFileOrDirectory _ _ _ => .notFound
  | .alreadyExists _ _ _ => .alreadyExists
  | .inappropriateType _ code _ => if code = directoryCode then .isDirectory else .notDirectory
  | error => .other error.toString

/-- The result of an operation, with the cause of its failure. -/
def attempt {α : Type} (operation : IO α) : IO (Except FileError α) := do
  match ← operation.toBaseIO with
  | .ok value => return .ok value
  | .error e => return .error (causeOf e)

/-- The result of an operation on a path. -/
def attemptAt {α : Type} (path : String) (operation : IO α) : IO (Except FileError α) :=
  match pathFault? path with
  | some fault => return .error fault
  | none => attempt operation

/-- The disk as a file system. -/
def fileSystem : FileSystem IO where
  present path := do
    match ← attemptAt path (IO.FS.readFile path) with
    | .error .isDirectory => return true
    | .error (.other _) => return true
    | .error _ => return false
    | .ok _ => return true
  isDirectory path := do
    match ← attemptAt path (IO.FS.readFile path) with
    | .error .isDirectory => return true
    | _ => return false
  read path := attemptAt path (IO.FS.readFile path)
  createDirectory path := attemptAt path (IO.FS.createDir path)
  write path content := attemptAt path (IO.FS.writeFile path content)

end ActionRegex.Disk

/-- Runs the command line that the program was started with. -/
def main (arguments : List String) : IO UInt32 := do
  let home ← IO.getEnv "HOME"
  let outcome ← CommandLine.run Disk.fileSystem (home.filter fun path => !path.isEmpty) arguments
  IO.print outcome.stdout
  IO.eprint outcome.stderr
  if outcome.code = CommandLine.exitUsage then IO.eprint CommandLine.usageText
  return outcome.code.toUInt32
