/-
# The expanded source is a source of the same program

The expanded source of a program can be assembled in its place, as long as no line
has become too long by the label that was put in front of it. Its lines are read as
they were before, for there are fewer macros now; and none of them can be taken for
a part of a macro definition, since such a line could not have been read.

Key theorems: `Outline.statements_of_texts`, `Outline.Acceptable.of_statements`,
`Program.alike_of_expandedText`.
-/
import TenBit.Proofs.Macro.Reexpansion
import TenBit.Proofs.Program.Acceptance
import TenBit.Proofs.Program.Alike
import TenBit.Proofs.Statement.Rereading

namespace TenBit

/-- What a line says, it says without macros and without a carriage return at its
end. -/
theorem Statement.read_again {macros : MacroTable} {t : Text} {s : Statement}
    (h : read macros t = .ok s) : read .empty (Source.withoutReturn t) = .ok s := by
  rw [read_withoutReturn]
  exact relaxes_read macros.covers_empty t s h

namespace Outline

/-- The outline depends on the texts of the lines only. -/
theorem statements_eq_filterMap (macros : MacroTable) (lines : List SourceLine) :
    statements macros lines =
      (lines.map SourceLine.text).filterMap fun t => (Statement.read macros t).toOption := by
  rw [List.filterMap_map]
  rfl

theorem readable_of_texts {macros : MacroTable} {lines lines' : List SourceLine}
    (hread : ∀ l ∈ lines, ∃ s, Statement.read macros l.text = .ok s)
    (htexts : lines'.map SourceLine.text = lines.map fun l => Source.withoutReturn l.text) :
    ∀ l ∈ lines', ∃ s, Statement.read .empty l.text = .ok s := by
  intro l hl
  have hmem := List.mem_map_of_mem (f := SourceLine.text) hl
  rw [htexts] at hmem
  obtain ⟨k, hk, htext⟩ := List.mem_map.1 hmem
  obtain ⟨s, hs⟩ := hread k hk
  rw [← htext]
  exact ⟨s, Statement.read_again hs⟩

theorem statements_of_texts {macros : MacroTable} {lines lines' : List SourceLine}
    (hread : ∀ l ∈ lines, ∃ s, Statement.read macros l.text = .ok s)
    (htexts : lines'.map SourceLine.text = lines.map fun l => Source.withoutReturn l.text) :
    statements .empty lines' = statements macros lines := by
  rw [statements_eq_filterMap, htexts, List.filterMap_map]
  refine List.filterMap_congr fun l hl => ?_
  obtain ⟨s, hs⟩ := hread l hl
  rw [Function.comp_apply, Statement.read_again hs, hs]

/-- Apart from the lines that cannot be read, the rules are about the outline. -/
theorem Acceptable.of_statements {macros macros' : MacroTable} {lines lines' : List SourceLine}
    (h : Acceptable macros lines)
    (hread : ∀ l ∈ lines', ∃ s, Statement.read macros' l.text = .ok s)
    (hstatements : statements macros' lines' = statements macros lines) :
    Acceptable macros' lines' := by
  constructor
  case readable => exact hread
  all_goals rw [hstatements]
  case distinct => exact h.distinct
  case own => exact h.own
  case defined => exact h.defined
  case exported => exact h.exported
  case fits => exact h.fits

end Outline

namespace Program

open Outline

theorem ofExpansion_of_assemble {file : Text} {input : Input} {p : Program}
    (h : assemble file input = .ok p) :
    ofExpansion (Expansion.ofInput .empty (.new file) input) = .ok p := by
  unfold assemble Expansion.ofFile at h
  simp only at h
  split at h
  · rename_i x hx
    split at hx
    · cases hx
    · cases hx
      exact h
  · cases h

/-- The lines of a program are expanded to themselves. -/
theorem ofFile_expandedText {x : Expansion} {p : Program} (h : ofExpansion x = .ok p)
    (hlines : ∀ l ∈ x.lines, '\n' ∉ l.text ∧ l.text.length ≤ Source.maxLength) (file : Text) :
    ∃ ls, Expansion.ofFile file ⟨Utf8.encode p.expandedText, none⟩ =
        .ok ⟨ls, .empty, .new file⟩ ∧
      ls.map SourceLine.text = x.lines.map fun l => Source.withoutReturn l.text := by
  have htext : p.expandedText = (x.lines.map SourceLine.text).flatMap fun t => t ++ ['\n'] := by
    rw [expandedText, lines_of_ofExpansion h, Expansion.text, List.flatMap_map]
  have hwords : ∀ t ∈ x.lines.map SourceLine.text,
      Text.firstWord? (Source.withoutReturn t) ≠ some Name.macroStart ∧
        Text.firstWord? (Source.withoutReturn t) ≠ some Name.macroEnd := by
    refine List.forall_mem_map.2 fun l hl => ?_
    obtain ⟨s, hs⟩ := (acceptable_of_ok h).readable l hl
    have hagain := Statement.read_again hs
    exact ⟨Statement.firstWord?_of_read hagain Statement.unspoken_macroStart,
      Statement.firstWord?_of_read hagain Statement.unspoken_macroEnd⟩
  obtain ⟨ls, hfile, hls⟩ := Expansion.ofFile_written file (List.forall_mem_map.2 hlines) hwords
  rw [List.map_map] at hls
  exact ⟨ls, htext ▸ hfile, hls⟩

/-- **The expanded source is a source of the same program.** If a source is
assembled and the lines of its expansion are short enough to be read, then the text
of the expansion is assembled too, and the programs are alike. -/
theorem alike_of_expandedText {file : Text} {input : Input} {p : Program}
    (h : assemble file input = .ok p)
    (hshort : ∀ l ∈ p.lines, l.text.length ≤ Source.maxLength) (file' : Text) :
    ∃ q, assemble file' ⟨Utf8.encode p.expandedText, none⟩ = .ok q ∧ Alike p q := by
  have hx := ofExpansion_of_assemble h
  have hacceptable := acceptable_of_ok hx
  rw [lines_of_ofExpansion hx] at hshort
  obtain ⟨ls, hfile, htexts⟩ := ofFile_expandedText hx
    (fun l hl => ⟨Expansion.not_mem_of_mem_lines hl, hshort l hl⟩) file'
  have hread := readable_of_texts hacceptable.readable htexts
  have hstatements := statements_of_texts hacceptable.readable htexts
  -- nothing was reported about the text, and the outline is the one of the program
  obtain ⟨q, hq⟩ := exists_ok_iff_acceptable (x := ⟨ls, .empty, .new file'⟩).2
    ⟨List.forall_mem_nil _, hacceptable.of_statements hread hstatements⟩
  refine ⟨q, by rw [assemble, hfile]; exact hq, ?_⟩
  apply alike_of_similar (assembles_of_ok hx) (assembles_of_ok hq)
  rw [hstatements]
  exact Outline.Similar.refl _

/-- A macro that is called behind a label, references of both kinds, and lines with
more than one carriage return. -/
def macroSample : Input where
  bytes := Utf8.encode
    ("mcro m\n; note\r\r\n  inc K\r\r\nmcroend\n.extern X\n.entry L\n" ++
      "L: m\nm\nK: .data 7,-1\r\r\njmp X\nstop").toList

set_option maxRecDepth 20000 in
theorem macroSample_ok : ∃ p, assemble [] macroSample = .ok p ∧
    ∀ l ∈ p.lines, l.text.length ≤ Source.maxLength :=
  ⟨_, rfl, by decide⟩

theorem alike_of_expandedText_sample : ∃ p q, assemble [] macroSample = .ok p ∧
    (∀ l ∈ p.lines, l.text.length ≤ Source.maxLength) ∧
    assemble [] ⟨Utf8.encode p.expandedText, none⟩ = .ok q ∧ Alike p q := by
  obtain ⟨p, hp, hshort⟩ := macroSample_ok
  obtain ⟨q, hq, halike⟩ := alike_of_expandedText hp hshort []
  exact ⟨p, q, hp, hshort, hq, halike⟩

end Program
end TenBit
