/-
# Jobs

A job assembles one source file and writes the files that belong to it. All of
them are staged before any is put in its place; an entries or externals file
that the program does not need is removed if there is one. When the job fails
after the source was opened, the object, entries and externals files are
removed. Failing to print the listing does not undo the job.

Key definitions: `Options`, `Failure`, `Job.writeOutputs`, `Job.assembleFile`.
-/
import TenBit.Program.Basic
import TenBit.Storage.Access
import TenBit.Storage.Path

namespace TenBit

/-- What a job does besides assembling. -/
structure Options where
  /-- The listing is printed. -/
  list : Bool := false
  /-- The expanded source is written. -/
  expanded : Bool := true
deriving DecidableEq, Repr

/-- Why a job failed. -/
inductive Failure
  /-- The source has errors. -/
  | rejected (report : Report)
  /-- A file could not be read or written. -/
  | storage (failure : StorageFailure)
deriving DecidableEq, Repr

/-- The wording of a failure. -/
def Failure.message : Failure → String
  | .rejected r => r.rejection
  | .storage f => f.message

namespace Job

variable {m : Type → Type} [Monad m] [Storage m]

/-- A step, whose obstacle becomes the failure of the job. -/
def attempt {α : Type} (action : Action) (target : Target) (step : m (Except Obstacle α)) :
    ExceptT Failure m α :=
  ExceptT.mk do
    match ← step with
    | .ok a => return .ok a
    | .error o => return .error (.storage ⟨action, target, o.message⟩)

/-- A result, whose report becomes the failure of the job if there is one. -/
def accept {α : Type} (r : Except Report α) : ExceptT Failure m α :=
  match r with
  | .ok a => pure a
  | .error report => throw (.rejected report)

/-- Writes a file beside its place. -/
def stage (path contents : Text) : ExceptT Failure m (Storage.Staged m) :=
  attempt .write (.folder (Path.folder path)) (Storage.stage (Path.folder path) contents)

/-- Moves a file to its place. -/
def publish (path : Text) (staged : Storage.Staged m) : ExceptT Failure m Unit :=
  attempt .rename (.file path) (Storage.publish staged path)

/-- Removes a file if there is one. -/
def removeStale (path : Text) : ExceptT Failure m Unit :=
  attempt .remove (.file path) do
    match ← Storage.remove path with
    | .error .missing => return .ok ()
    | r => return r

/-- Writes one file. -/
def writeFile (path contents : Text) : ExceptT Failure m Unit := do
  let staged ← stage path contents
  publish path staged

/-- Stages the files that are to be written. If one fails, those before it are
taken back. -/
def stageAll : List (Text × Option Text) → ExceptT Failure m (List (Text × Option (Storage.Staged m)))
  | [] => return []
  | (path, none) :: files => do
    let rest ← stageAll files
    return (path, none) :: rest
  | (path, some contents) :: files => do
    let staged ← stage path contents
    tryCatch
      (do
        let rest ← stageAll files
        return (path, some staged) :: rest)
      fun e => do
        ExceptT.lift (Storage.withdraw staged)
        throw e

/-- Takes back the files that were staged. -/
def withdrawAll : List (Text × Option (Storage.Staged m)) → m Unit
  | [] => return ()
  | (_, none) :: files => withdrawAll files
  | (_, some staged) :: files => do
    Storage.withdraw staged
    withdrawAll files

/-- Puts the staged files in their places and removes those that are not
wanted, in order. If one fails, those behind it are taken back. -/
def settleAll : List (Text × Option (Storage.Staged m)) → ExceptT Failure m Unit
  | [] => return ()
  | (path, staged) :: files => do
    tryCatch
      (match staged with
        | some staged => publish path staged
        | none => removeStale path)
      fun e => do
        ExceptT.lift (withdrawAll files)
        throw e
    settleAll files

/-- The files of a program besides the expanded source, with their texts; one
without a text is not wanted. -/
def outputs (paths : OutputPaths) (p : Program) : List (Text × Option Text) :=
  [(paths.object, some p.image.objectText), (paths.entries, p.symbols.entriesText?),
    (paths.externals, p.image.externalsText?)]

/-- Writes the files of a program. -/
def writeOutputs (paths : OutputPaths) (p : Program) : ExceptT Failure m Unit := do
  let staged ← stageAll (outputs paths p)
  settleAll staged

/-- Removes the object, entries and externals files, as far as that succeeds. -/
def discard (paths : OutputPaths) : ExceptT Failure m Unit :=
  tryCatch
    (do
      removeStale paths.object
      removeStale paths.entries
      removeStale paths.externals)
    fun _ => return ()

/-- The program of a source, with its files written. -/
def build (options : Options) (paths : OutputPaths) (file : Text) (input : Input) :
    ExceptT Failure m Program := do
  let expansion ← accept (Expansion.ofFile file input)
  if options.expanded then writeFile paths.expanded (Expansion.text expansion.lines)
  let program ← accept (Program.ofExpansion expansion)
  writeOutputs paths program
  return program

/-- Assembles the source at a path and writes its files. -/
def assembleFile (options : Options) (path : Text) : ExceptT Failure m Program := do
  let paths := OutputPaths.ofSource path
  let input ← attempt .read (.file path) (Storage.read path)
  let program ← tryCatch (build options paths path input) fun e => do
    discard paths
    throw e
  if options.list then
    attempt .write .standardOutput (Storage.print program.listingText)
  return program

end Job
end TenBit
