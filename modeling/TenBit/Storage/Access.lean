/-
# Access to files

What the assembler needs of the place where files are kept: a source is read, an
output is written beside its place and then moved there, an old output is
removed, a listing is printed. Each step says whether it succeeded, and if not,
what was in its way.

Key definitions: `Obstacle`, `Storage`, `StorageFailure`.
-/
import TenBit.Source.Line

namespace TenBit

/-- What can be in the way of a step. -/
inductive Obstacle
  /-- There is no such file. -/
  | missing
  /-- A part of the path is a file and not a folder. -/
  | notFolder
  /-- The path is a folder. -/
  | isFolder
  /-- The path is one that cannot be replaced. -/
  | busy
  /-- The path, or a name in it, is too long. -/
  | tooLong
  /-- The path has a NUL in it, which no path can have. -/
  | holdsNul
  /-- There is no room. -/
  | full
  /-- Something else. -/
  | other (reason : String)
deriving DecidableEq, Repr

/-- The wording of an obstacle. -/
def Obstacle.message : Obstacle → String
  | .missing => "No such file or directory (os error 2)"
  | .notFolder => "Not a directory (os error 20)"
  | .isFolder => "Is a directory (os error 21)"
  | .busy => "Device or resource busy (os error 16)"
  | .tooLong => "File name too long (os error 36)"
  | .holdsNul => "file name contained an unexpected NUL byte"
  | .full => "No space left on device (os error 28)"
  | .other reason => reason

/-- A place where files are kept, and a printer. -/
class Storage (m : Type → Type) where
  /-- A file that is written and not yet in its place. -/
  Staged : Type
  /-- The source at a path. -/
  read (path : Text) : m (Except Obstacle Input)
  /-- Writes a file into a folder, to be moved to its place later. -/
  stage (folder contents : Text) : m (Except Obstacle Staged)
  /-- Moves a file to its place. If it cannot, the file is gone. -/
  publish (staged : Staged) (path : Text) : m (Except Obstacle Unit)
  /-- Takes back a file that will not be moved. -/
  withdraw (staged : Staged) : m Unit
  /-- Removes the file at a path. -/
  remove (path : Text) : m (Except Obstacle Unit)
  /-- Prints a text. -/
  print (text : Text) : m (Except Obstacle Unit)

/-- What was to be done when a step failed. -/
inductive Action
  | read | write | rename | remove
deriving DecidableEq, Repr

/-- The wording of an action. -/
def Action.name : Action → String
  | .read => "read"
  | .write => "write"
  | .rename => "rename"
  | .remove => "remove"

/-- What a step was about. -/
inductive Target
  | file (path : Text)
  | folder (path : Text)
  | standardOutput
deriving DecidableEq, Repr

/-- The wording of a target. -/
def Target.name : Target → String
  | .file p =>
    let path := String.ofList p
    s!"file {path}"
  | .folder p =>
    let path := String.ofList p
    s!"directory {path}"
  | .standardOutput => "standard output"

/-- A step that failed. -/
structure StorageFailure where
  action : Action
  target : Target
  reason : String
deriving DecidableEq, Repr

/-- The wording of a step that failed. -/
def StorageFailure.message (f : StorageFailure) : String :=
  s!"I/O error: failed to {f.action.name} {f.target.name}: {f.reason}"

end TenBit
