/-
# Programs

A source is assembled in three steps: its macros are expanded, its names get
addresses, its words are written. Errors of the expansion end the work before
the first pass and a fatal error of the first pass ends it before the second;
otherwise both passes run, so that all errors are reported together. A program
results exactly if there is no error.

Key definitions: `Program`, `Program.ofExpansion`, `Program.assemble`.
-/
import TenBit.Macro.Expansion
import TenBit.Memory.Encoding

namespace TenBit

/-- An assembled program. Its report holds notes only. -/
structure Program where
  lines : List SourceLine
  symbols : SymbolTable
  image : Image
  listing : Listing
  report : Report
deriving DecidableEq

namespace Program

/-- The program of an expanded source, or its report if it has errors. -/
def ofExpansion (x : Expansion) : Except Report Program :=
  let layout := Layout.ofLines x.macros x.report x.lines
  if layout.report.isFatal then .error layout.report
  else
    let e := Encoder.ofLayout x.macros layout x.lines
    if 0 < e.report.errorCount then .error e.report
    else .ok ⟨x.lines, e.symbols, e.image, e.listing layout, e.report⟩

/-- The two passes behind a program that results. -/
theorem eq_of_ok {x : Expansion} {p : Program} (h : ofExpansion x = .ok p) :
    ∃ l e, l = Layout.ofLines x.macros x.report x.lines ∧ l.report.isFatal = false ∧
      e = Encoder.ofLayout x.macros l x.lines ∧
      p = ⟨x.lines, e.symbols, e.image, e.listing l, e.report⟩ := by
  unfold ofExpansion at h
  simp only at h
  split at h
  · cases h
  · rename_i hfatal
    split at h
    · cases h
    · exact ⟨_, _, rfl, by simpa using hfatal, rfl, (Except.ok.inj h).symm⟩

/-- The lines of a program are those of the expanded source. -/
theorem lines_of_ofExpansion {x : Expansion} {p : Program} (h : ofExpansion x = .ok p) :
    p.lines = x.lines := by
  obtain ⟨l, e, -, -, -, rfl⟩ := eq_of_ok h
  rfl

/-- The program of a source, or its report if it has errors. -/
def assemble (file : Text) (input : Input) : Except Report Program :=
  match Expansion.ofFile file input with
  | .ok x => ofExpansion x
  | .error r => .error r

/-- The text of the listing of a program. -/
def listingText (p : Program) : Text := p.listing.text p.symbols

/-- The text of the expanded source of a program. -/
def expandedText (p : Program) : Text := Expansion.text p.lines

end Program

/-- The wording of the failure of a source with errors. -/
def Report.rejection (r : Report) : String :=
  let file := String.ofList r.file
  let outcome := if r.isFatal then "aborted" else "failed"
  let plural := if r.errorCount = 1 then "" else "s"
  s!"{file}: translation {outcome} with {r.errorCount} error{plural}"

end TenBit
