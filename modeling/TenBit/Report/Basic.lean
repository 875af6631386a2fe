/-
# Reports

A report belongs to one source file. It knows the stage that is at work and
keeps the problems found, in the order they were found; nothing is ever taken
out of it.

Key definitions: `Stage`, `Diagnostic`, `Report`, `Report.record`,
`Report.isFatal`, `Report.errorCount`.
-/
import TenBit.Report.Fault
import TenBit.Text.Blank

namespace TenBit

/-- The stages a source goes through. -/
inductive Stage
  | preprocessor | firstPass | secondPass
deriving DecidableEq, Repr

/-- The wording of a stage. -/
def Stage.name : Stage → String
  | .preprocessor => "preprocessor"
  | .firstPass => "first pass"
  | .secondPass => "second pass"

/-- One problem: its cause, the line it is on, and the stage that found it. -/
structure Diagnostic where
  fault : Fault
  line : Nat
  stage : Stage
deriving DecidableEq, Repr

/-- The wording of a problem. -/
def Diagnostic.message (d : Diagnostic) : String :=
  s!"line {d.line}: {d.stage.name}: {d.fault.severity.name}: {d.fault.message}"

/-- The problems of one source file. -/
structure Report where
  file : Text
  stage : Stage := .preprocessor
  diagnostics : List Diagnostic := []
deriving DecidableEq, Repr

namespace Report

/-- The report of a file nobody has looked at. -/
def new (file : Text) : Report := { file }

/-- The report with another stage at work. -/
def enter (r : Report) (s : Stage) : Report := { r with stage := s }

/-- The report with one more problem. -/
def record (r : Report) (f : Fault) (line : Nat) : Report :=
  { r with diagnostics := r.diagnostics ++ [⟨f, line, r.stage⟩] }

/-- The report with one more problem, if the condition holds. -/
def recordIf (r : Report) (b : Bool) (f : Fault) (line : Nat) : Report :=
  if b then r.record f line else r

/-- Some problem stops the work. -/
def isFatal (r : Report) : Bool := r.diagnostics.any fun d => d.fault.isFatal

/-- The number of problems that are not mere notes. -/
def errorCount (r : Report) : Nat :=
  r.diagnostics.countP fun d => d.fault.severity != .note

/-- The wording of a report, one line for each problem. -/
def message (r : Report) : String :=
  let file := String.ofList r.file
  String.join (r.diagnostics.map fun d => s!"{file}: {d.message}\n")

end Report
end TenBit
