/-
# What the two passes make of a program

The passes put together: a program results exactly if it fits into memory and
neither pass has anything but notes to say about it, and then its words and its
symbols are those of its outline.

Key definitions: `Program.problems`, `Program.Assembles`.
Key theorems: `Program.exists_ok_iff`, `Program.assembles_of_ok`.
-/
import TenBit.Program.Basic
import TenBit.Proofs.Memory.Encoding

namespace TenBit
namespace Program

open Outline

/-- The symbols after the first pass. -/
def laidOut (x : Expansion) : SymbolTable := (Layout.ofLines x.macros x.report x.lines).symbols

/-- What the two passes report about a program that fits into memory. -/
def problems (x : Expansion) : List Diagnostic :=
  Layout.problems x.macros [] x.lines ++ Encoder.problems x.macros (laidOut x).place? x.lines

/-- The program has the words and the symbols of the source it comes from. -/
structure Assembles (x : Expansion) (p : Program) : Prop where
  fits : Fits (statements x.macros x.lines)
  code : p.image.code = (slots (statements x.macros x.lines)).map (Slot.fill p.symbols.place?)
  data : p.image.data = dataWords (statements x.macros x.lines)
  references : p.image.references =
    Slot.references p.symbols.place? 0 (slots (statements x.macros x.lines))
  places : p.symbols.place? = (laidOut x).place?
  symbols : ∀ n, p.symbols.binding? n =
    ((Binding.find n (bindings (statements x.macros x.lines))).map
      (Binding.moved (codeBase + codeSize (statements x.macros x.lines)))).map
        (Binding.markedBy (entries (statements x.macros x.lines)))
  report : p.report.diagnostics = x.report.diagnostics ++ problems x
  notes : ∀ d ∈ p.report.diagnostics, d.fault.severity = .note

theorem Assembles.length_code {x : Expansion} {p : Program} (h : Assembles x p) :
    p.image.code.length = codeSize (statements x.macros x.lines) := by
  rw [h.code, List.length_map, length_slots]

theorem Assembles.length_data {x : Expansion} {p : Program} (h : Assembles x p) :
    p.image.data.length = dataSize (statements x.macros x.lines) := by
  rw [h.data, length_dataWords]

/-- The second pass has nothing to say about a program that results. -/
theorem Assembles.encodingFaults_eq_nil {x : Expansion} {p : Program} (h : Assembles x p) :
    ∀ s ∈ statements x.macros x.lines, s.encodingFaults p.symbols.place? = [] := by
  rw [h.places]
  refine Encoder.notes_problems_iff.1 fun d hd => h.notes d ?_
  rw [h.report]
  exact List.mem_append_right _ (List.mem_append_right _ hd)

/-- The passes over a program that fits. -/
theorem ofExpansion_of_fits {x : Expansion} (hx : x.report.isFatal = false)
    (hfits : Fits (statements x.macros x.lines)) :
    ∃ p r, r.diagnostics = x.report.diagnostics ++ problems x ∧
      ofExpansion x = (if 0 < r.errorCount then .error r else .ok p) ∧
      (r.errorCount = 0 → Assembles x p) := by
  obtain ⟨hl, hlreport⟩ := Layout.ofLines_finished hx hfits
  have hlfatal := (Layout.isFatal_ofLines_iff x.macros x.report x.lines).2 ⟨hx, hfits⟩
  obtain ⟨he, hereport⟩ := Encoder.ofLayout_describes hl hlfatal hfits
  set l := Layout.ofLines x.macros x.report x.lines with hldef
  set e := Encoder.ofLayout x.macros l x.lines with hedef
  have hdiagnostics : e.report.diagnostics = x.report.diagnostics ++ problems x := by
    rw [hereport, Report.extend_diagnostics, Report.enter_diagnostics, hlreport,
      Report.extend_diagnostics, Report.enter_diagnostics, List.append_assoc]
    rfl
  refine ⟨⟨x.lines, e.symbols, e.image, e.listing l, e.report⟩, e.report, hdiagnostics, ?_,
    fun hnone => ?_⟩
  · simp only [ofExpansion, ← hldef, hlfatal, ← hedef]
    rfl
  · have hsymbols : ∀ n, e.symbols.binding? n =
        ((Binding.find n (bindings (statements x.macros x.lines))).map
          (Binding.moved (codeBase + codeSize (statements x.macros x.lines)))).map
            (Binding.markedBy (entries (statements x.macros x.lines))) := by
      intro n
      rw [he.symbols, hl.symbols]
    refine ⟨hfits, ?_, he.data, ?_, he.places, hsymbols, hdiagnostics,
      Report.errorCount_eq_zero_iff.1 hnone⟩
    · rw [he.places]
      exact he.code
    · rw [he.places]
      exact he.references

/-- A program that does not fit, or whose source was given up, is refused. -/
theorem ofExpansion_of_overflow {x : Expansion}
    (h : ¬ (x.report.isFatal = false ∧ Fits (statements x.macros x.lines))) :
    ∃ r, ofExpansion x = .error r := by
  have hfatal : (Layout.ofLines x.macros x.report x.lines).report.isFatal = true := by
    rw [← Layout.isFatal_ofLines_iff] at h
    simpa using h
  exact ⟨_, by simp only [ofExpansion, hfatal]; rfl⟩

/-- **What a program that results is made of.** -/
theorem assembles_of_ok {x : Expansion} {p : Program} (h : ofExpansion x = .ok p) :
    Assembles x p := by
  by_cases hx : x.report.isFatal = false ∧ Fits (statements x.macros x.lines)
  · obtain ⟨q, r, -, hq, ha⟩ := ofExpansion_of_fits hx.1 hx.2
    rw [hq] at h
    split at h
    · cases h
    · rename_i hr
      cases h
      exact ha (by omega)
  · obtain ⟨r, hr⟩ := ofExpansion_of_overflow hx
    rw [hr] at h
    cases h

/-- **When a program results**: it fits, and there is nothing but notes about
it. -/
theorem exists_ok_iff (x : Expansion) : (∃ p, ofExpansion x = .ok p) ↔
    Fits (statements x.macros x.lines) ∧
      ∀ d ∈ x.report.diagnostics ++ problems x, d.fault.severity = .note := by
  constructor
  · rintro ⟨p, hp⟩
    have h := assembles_of_ok hp
    exact ⟨h.fits, h.report ▸ h.notes⟩
  · rintro ⟨hfits, hnotes⟩
    have hx : x.report.isFatal = false := Report.isFatal_eq_false_iff.2 fun d hd =>
      Fault.isFatal_of_note (hnotes d (List.mem_append_left _ hd))
    obtain ⟨p, r, hr, hq, -⟩ := ofExpansion_of_fits hx hfits
    have hzero : r.errorCount = 0 := Report.errorCount_eq_zero_iff.2 (hr ▸ hnotes)
    exact ⟨p, by rw [hq, hzero]; rfl⟩

/-- A program with code before and behind its data, a forward and an external
reference, and every mode of operands. -/
def sample : Expansion where
  lines := [
    ⟨1, "A: mov M[r1][r2], r3".toList⟩,
    ⟨2, ".extern X".toList⟩,
    ⟨3, "M: .mat [2][3]".toList⟩,
    ⟨4, "lea X, K".toList⟩,
    ⟨5, "add #-1, A".toList⟩,
    ⟨6, "cmp r1, r2".toList⟩,
    ⟨7, "K: .string \"xyz\"".toList⟩,
    ⟨8, ".entry A".toList⟩,
    ⟨9, "E: stop".toList⟩]
  macros := .empty
  report := .new []

set_option maxRecDepth 10000 in
theorem sample_ok : ∃ p, ofExpansion sample = .ok p := ⟨_, rfl⟩

end Program
end TenBit
