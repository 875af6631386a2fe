/-
# The passes agree

The first pass counts words and the second writes them. Whatever errors there
are, as long as the first pass is not stopped the second writes just as many
words as were counted. Reports that would say otherwise do not occur, so every
problem of a source is a problem of one of its lines.

Key definitions: `Program.reportOf`.
Key theorems: `Program.mem_diagnostics_ofExpansion`, `Program.passes_agree`.
-/
import TenBit.Proofs.Macro.Lines
import TenBit.Proofs.Program.Assembly

namespace TenBit
namespace Program

open Outline

/-- The report of an attempt to assemble a program. -/
def reportOf : Except Report Program → Report
  | .ok p => p.report
  | .error r => r

/-- The state of both passes, if the first is not stopped. -/
theorem ofLayout_ofLines {macros : MacroTable} {report : Report} {lines : List SourceLine}
    (h : (Layout.ofLines macros report lines).report.isFatal = false) :
    (Layout.ofLines macros report lines).Finished (statements macros lines) ∧
      (Encoder.ofLayout macros (Layout.ofLines macros report lines) lines).Describes
        (Layout.ofLines macros report lines).symbols (statements macros lines) ∧
      (Encoder.ofLayout macros (Layout.ofLines macros report lines) lines).report =
        ((Layout.ofLines macros report lines).report.enter .secondPass).extend
          (Encoder.problems macros (Layout.ofLines macros report lines).symbols.place? lines) := by
  obtain ⟨hr, hfits⟩ := (Layout.isFatal_ofLines_iff macros report lines).1 h
  have hl := (Layout.ofLines_finished hr hfits).1
  exact ⟨hl, Encoder.ofLayout_describes hl h hfits⟩

/-- A problem that the passes add is about one of the lines. -/
theorem mem_diagnostics_ofExpansion {x : Expansion} (hx : x.report.isFatal = false)
    {d : Diagnostic} (hd : d ∈ (reportOf (ofExpansion x)).diagnostics) :
    d ∈ x.report.diagnostics ∨
      Layout.Expected d.fault ∧ ∃ line ∈ x.lines, d.line = line.origin := by
  have hlayout : ∀ e ∈ (Layout.ofLines x.macros x.report x.lines).report.diagnostics,
      e ∈ x.report.diagnostics ∨
        Layout.Expected e.fault ∧ ∃ line ∈ x.lines, e.line = line.origin := by
    intro e he
    rw [Layout.ofLines_report hx] at he
    exact Layout.mem_diagnostics_run x.macros x.lines _ he
  cases hfatal : (Layout.ofLines x.macros x.report x.lines).report.isFatal with
  | true =>
    simp only [ofExpansion, hfatal, if_true, reportOf] at hd
    exact hlayout d hd
  | false =>
    obtain ⟨-, -, hreport⟩ := ofLayout_ofLines hfatal
    have hd' : d ∈ (Encoder.ofLayout x.macros (Layout.ofLines x.macros x.report x.lines)
        x.lines).report.diagnostics := by
      simp only [ofExpansion, hfatal, Bool.false_eq_true, if_false] at hd
      split at hd <;> exact hd
    rw [hreport] at hd'
    rcases List.mem_append.1 hd' with hd' | hd'
    · exact hlayout d hd'
    · have herror := Encoder.severity_of_mem_problems hd'
      obtain ⟨line, hline, hd'⟩ := List.mem_flatMap.1 hd'
      obtain ⟨f, -, rfl⟩ := List.mem_map.1 hd'
      exact Or.inr ⟨Or.inl (Fault.isFatal_of_error herror), line, hline, rfl⟩

/-- Problems of lines within bounds lie within them. -/
theorem located_ofExpansion {x : Expansion} {count : Nat} (hx : x.report.isFatal = false)
    (h : Diagnostic.Located x.report.diagnostics count)
    (hlines : ∀ l ∈ x.lines, 1 ≤ l.origin ∧ l.origin ≤ count) :
    Diagnostic.Located (reportOf (ofExpansion x)).diagnostics count := by
  have hsource := Report.isFatal_eq_false_iff.1 hx
  have hfault : ∀ {f : Fault}, Layout.Expected f → f ≠ .passesDisagree ∧ f ≠ .strayMacroEnd := by
    rintro f (hf | rfl)
    · exact ⟨Fault.ne_of_isFatal hf rfl, Fault.ne_of_isFatal hf rfl⟩
    · exact ⟨nofun, nofun⟩
  constructor
  · intro d hd
    rcases mem_diagnostics_ofExpansion hx hd with hd | ⟨hf, -⟩
    · exact h.agree d hd
    · exact (hfault hf).1
  · intro d hd
    rcases mem_diagnostics_ofExpansion hx hd with hd | ⟨-, l, hl, hline⟩
    · exact h.pos d hd
    · rw [hline]
      exact (hlines l hl).1
  · intro d hd
    rcases mem_diagnostics_ofExpansion hx hd with hd | ⟨-, l, hl, hline⟩
    · exact h.le d hd
    · rw [hline]
      exact Or.inl (hlines l hl).2
  · intro d hd hstray
    rcases mem_diagnostics_ofExpansion hx hd with hd | ⟨hf, -⟩
    · exact absurd hstray (Fault.ne_of_isFatal (hsource d hd) rfl)
    · exact absurd hstray (hfault hf).2

theorem located_assemble (file : Text) (input : Input) :
    Diagnostic.Located (reportOf (assemble file input)).diagnostics input.lineCount := by
  obtain ⟨hreport, hlines⟩ := Expansion.ofInput_located file input
  unfold assemble Expansion.ofFile
  by_cases herror : 0 < (Expansion.ofInput .empty (.new file) input).report.errorCount
  · simpa [herror, reportOf] using hreport
  · have hnotes := Report.errorCount_eq_zero_iff.1 (Nat.eq_zero_of_not_pos herror)
    have hfatal : (Expansion.ofInput .empty (.new file) input).report.isFatal = false :=
      Report.isFatal_eq_false_iff.2 fun d hd => Fault.isFatal_of_note (hnotes d hd)
    simp only [herror, if_false]
    exact located_ofExpansion hfatal hreport hlines

/-- **The passes agree.** Unless the first pass is stopped, the second writes as
many words as the first has counted and is not stopped either. So no problem of
a source says that the passes disagree, and each is about one of its lines. -/
theorem passes_agree :
    (∀ (macros : MacroTable) (report : Report) (lines : List SourceLine),
      (Layout.ofLines macros report lines).report.isFatal = false →
        (Encoder.ofLayout macros (Layout.ofLines macros report lines) lines).image.code.length =
            (Layout.ofLines macros report lines).codeSize ∧
          (Encoder.ofLayout macros (Layout.ofLines macros report lines) lines).image.data.length =
            (Layout.ofLines macros report lines).dataSize ∧
          ∀ d ∈ (Encoder.ofLayout macros (Layout.ofLines macros report lines)
              lines).report.diagnostics,
            d.fault ≠ .passesDisagree ∧ d.fault ≠ .memoryOverflow) ∧
      ∀ (file : Text) (input : Input),
        Diagnostic.Located (reportOf (assemble file input)).diagnostics input.lineCount := by
  refine ⟨fun macros report lines h => ?_, located_assemble⟩
  obtain ⟨hl, he, hreport⟩ := ofLayout_ofLines h
  refine ⟨?_, ?_, fun d hd => ?_⟩
  · rw [he.length_code, hl.codeSize]
  · rw [he.length_data, hl.dataSize]
  · have hfatal := Encoder.problems_not_fatal macros
      (Layout.ofLines macros report lines).symbols.place?
      (r := (Layout.ofLines macros report lines).report.enter .secondPass) h lines
    rw [← hreport, Report.isFatal_eq_false_iff] at hfatal
    exact ⟨Fault.ne_of_isFatal (hfatal d hd) rfl, Fault.ne_of_isFatal (hfatal d hd) rfl⟩

/-- Lines with a name defined twice, one that is not defined, and nonsense. -/
def faultyLines : List SourceLine :=
  [⟨1, "A: inc A".toList⟩, ⟨2, "A: jmp B".toList⟩, ⟨3, "nonsense".toList⟩]

set_option maxRecDepth 4000 in
theorem isFatal_faultyLines :
    (Layout.ofLines .empty (.new []) faultyLines).report.isFatal = false := rfl

/-- The lines above, and a source that breaks off in its second line. -/
theorem passes_agree_faulty :
    (Layout.ofLines .empty (.new []) faultyLines).report.isFatal = false ∧
      (Encoder.ofLayout .empty (Layout.ofLines .empty (.new []) faultyLines)
          faultyLines).image.code.length =
        (Layout.ofLines .empty (.new []) faultyLines).codeSize ∧
      Diagnostic.Located
        (reportOf (assemble [] ⟨[0x61, 0x0A, 0x61], some "broken off"⟩)).diagnostics 1 := by
  have hcode := (passes_agree.1 .empty (.new []) faultyLines isFatal_faultyLines).1
  have hlocated := passes_agree.2 [] ⟨[0x61, 0x0A, 0x61], some "broken off"⟩
  have hcount : Input.lineCount ⟨[0x61, 0x0A, 0x61], some "broken off"⟩ = 1 := by decide
  rw [hcount] at hlocated
  exact ⟨isFatal_faultyLines, hcode, hlocated⟩

end Program
end TenBit
