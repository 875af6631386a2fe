/-
# The command line

The arguments are source files and options. Each file is a job of its own, and
the others are done even if one fails. The exit status is zero if every job
succeeded, one if some failed, and two if the arguments make no sense.

Key definitions: `Command`, `Command.parse?`, `Command.failures`,
`Command.run`.
-/
import TenBit.Job.Basic
import TenBit.Text.Decimal

namespace TenBit

/-- A command: the files to assemble, and how. -/
structure Command where
  inputs : List Text := []
  options : Options := {}
deriving DecidableEq, Repr

/-- How a command ended, and what it said about that. -/
structure Outcome where
  exit : Nat
  complaint : Text := []
deriving DecidableEq, Repr

namespace Command

/-- The option that asks for listings. -/
def listOption : Text := "--list".toList

/-- The option that leaves out the expanded source. -/
def noExpandedOption : Text := "--no-expanded".toList

/-- The mark behind which every argument is a file. -/
def endOfOptions : Text := "--".toList

/-- The argument is meant as an option. -/
def looksLikeOption : Text → Bool
  | '-' :: _ :: _ => true
  | _ => false

/-- The command with one more file. -/
def addInput (c : Command) (t : Text) : Option Command :=
  if t.isEmpty then none else some { c with inputs := c.inputs ++ [t] }

/-- The command with the listing option, which may be given once. -/
def addList (c : Command) : Option Command :=
  if c.options.list then none else some { c with options := { c.options with list := true } }

/-- The command without expanded sources, which may be asked for once. -/
def addNoExpanded (c : Command) : Option Command :=
  if c.options.expanded then some { c with options := { c.options with expanded := false } }
  else none

/-- The command with one more argument. -/
def addArgument (c : Command) (t : Text) : Option Command :=
  if t = listOption then c.addList
  else if t = noExpandedOption then c.addNoExpanded
  else if looksLikeOption t then none
  else c.addInput t

/-- The command with more arguments. -/
def addArguments : Command → List Text → Option Command
  | c, [] => some c
  | c, t :: ts =>
    if t = endOfOptions then ts.foldlM addInput c
    else (c.addArgument t).bind fun c => addArguments c ts

/-- The command that some arguments make. There has to be a file. -/
def parse? (args : List Text) : Option Command :=
  (addArguments {} args).bind fun c => if c.inputs.isEmpty then none else some c

variable {m : Type → Type} [Monad m] [Storage m]

/-- Does the jobs one after the other and counts those that fail. -/
def failures (options : Options) : List Text → m Nat
  | [] => return 0
  | t :: ts => do
    match ← (Job.assembleFile options (Path.source t)).run with
    | .ok _ => failures options ts
    | .error _ => return (← failures options ts) + 1

/-- What is said when jobs failed. -/
def complaint (failed total : Nat) : Text :=
  Decimal.write failed ++ " of ".toList ++ Decimal.write total ++
    " files failed to assemble\n".toList

/-- Carries out a command. -/
def execute (c : Command) : m Outcome := do
  let failed ← failures c.options c.inputs
  if failed = 0 then return { exit := 0 }
  else return { exit := 1, complaint := complaint failed c.inputs.length }

/-- Carries out the command that some arguments make. -/
def run (args : List Text) : m Outcome :=
  match parse? args with
  | some c => c.execute
  | none => return { exit := 2 }

end Command
end TenBit
