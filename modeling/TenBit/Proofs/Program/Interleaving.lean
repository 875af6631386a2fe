/-
# Code and data may be interleaved

Code and data lie in areas of their own, and names are known only after all lines
were seen. So it does not matter where in a program the lines of the other area
stand, or the lines that only tell about names: as long as the instructions keep
their order among themselves and so do the lines of data, the program stays what
it is.

Key definitions: `Outline.Interleaves`, `Program.Interleaves`.
Key theorems: `Outline.mem_bindingsFrom_iff_filter`,
`Outline.Interleaves.similar`, `Outline.Acceptable.perm`,
`Program.alike_of_interleaves`.
-/
import TenBit.Proofs.Program.Alike
import TenBit.Proofs.Program.Extents
import TenBit.Proofs.Program.Shift

namespace TenBit

namespace Outline

/-- The statements `ts` are the statements `ss`, with the instructions in the same
order among themselves, and the data too. -/
structure Interleaves (ss ts : List Statement) : Prop where
  perm : ts.Perm ss
  code : ts.filter Statement.isCode = ss.filter Statement.isCode
  data : ts.filter Statement.isData = ss.filter Statement.isData

/-! ### Each area by itself -/

/-- **Where a name is bound** is a matter of the code alone, or of the data alone,
or of neither if it is external. -/
theorem mem_bindingsFrom_iff_filter {b : Binding} : ∀ {ss : List Statement} {code data : Nat},
    b ∈ bindingsFrom code data ss ↔ b ∈ bindingsFrom code 0 (ss.filter Statement.isCode) ∨
      b ∈ bindingsFrom 0 data (ss.filter Statement.isData) ∨
        ∃ n ∈ externals ss, b = { name := n, kind := .external, address := 0 }
  | [], code, data => by simp [bindingsFrom, externals]
  | s :: ss, code, data => by
    have ih := @mem_bindingsFrom_iff_filter b ss (code + s.codeSize) (data + s.dataSize)
    rw [bindingsFrom, List.mem_append, ih]
    -- an instruction comes first in the code, a directive for memory in the data
    cases s with
    | blank => exact or_iff_right List.not_mem_nil
    | comment => exact or_iff_right List.not_mem_nil
    | instruction label i =>
      have hcode : (Statement.instruction label i :: ss).filter Statement.isCode =
        .instruction label i :: ss.filter Statement.isCode := rfl
      rw [hcode, bindingsFrom, List.mem_append]
      exact or_assoc.symm
    | directive label d =>
      by_cases hd : d.takesMemory = true
      · have hdata : (Statement.directive label d :: ss).filter Statement.isData =
          .directive label d :: ss.filter Statement.isData :=
            List.filter_cons_of_pos (a := Statement.directive label d) hd
        have hexternals : externals (.directive label d :: ss) = externals ss := by
          cases d with
          | external n => cases hd
          | _ => rfl
        rw [hdata, hexternals, bindingsFrom, List.mem_append,
          Statement.binding?_of_takesMemory code data label hd,
          Statement.binding?_of_takesMemory 0 data label hd]
        exact or_left_comm.trans (or_congr_right or_assoc.symm)
      · cases d with
        | data vs => exact absurd rfl hd
        | string t => exact absurd rfl hd
        | matrix dimensions vs => exact absurd rfl hd
        | entry n => exact or_iff_right List.not_mem_nil
        | external n =>
          have hexternals : (∃ m ∈ externals (.directive label (.external n) :: ss),
              b = { name := m, kind := .external, address := 0 }) ↔
                b ∈ (Statement.binding? code data (.directive label (.external n))).toList ∨
                  ∃ m ∈ externals ss, b = { name := m, kind := .external, address := 0 } := by
            show (∃ m ∈ n :: externals ss, _) ↔ b ∈ [_] ∨ _
            simp only [List.mem_cons, exists_eq_or_imp, List.not_mem_nil, or_false]
          rw [hexternals]
          exact or_left_comm.trans (or_congr_right or_left_comm)

theorem Interleaves.similar {ss ts : List Statement} (h : Interleaves ss ts) : Similar ss ts := by
  constructor
  case slots => rw [← slots_filter ts, h.code, slots_filter]
  case dataWords => rw [← dataWords_filter ts, h.data, dataWords_filter]
  case bindings =>
    intro b
    have hexternals : ∀ n, n ∈ externals ts ↔ n ∈ externals ss :=
      fun n => (h.perm.filterMap _).mem_iff
    refine mem_bindingsFrom_iff_filter.trans (Iff.trans ?_ mem_bindingsFrom_iff_filter.symm)
    rw [h.code, h.data]
    simp only [hexternals]
  case entries => exact fun n => (h.perm.filterMap _).mem_iff

/-! ### The rules do not ask for an order -/

theorem Acceptable.perm {macros : MacroTable} {lines lines' : List SourceLine}
    (h : Acceptable macros lines) (hperm : lines'.Perm lines) : Acceptable macros lines' := by
  have hstatements : (statements macros lines').Perm (statements macros lines) :=
    hperm.filterMap _
  have hlabels : ∀ n, n ∈ labels (statements macros lines') ↔ n ∈ labels (statements macros lines) :=
    fun n => (hstatements.filterMap _).mem_iff
  have hexternals : ∀ n, n ∈ externals (statements macros lines') ↔
      n ∈ externals (statements macros lines) := fun n => (hstatements.filterMap _).mem_iff
  constructor
  case readable => exact fun l hl => h.readable l (hperm.mem_iff.1 hl)
  case distinct => exact ((hstatements.filterMap _).nodup_iff).2 h.distinct
  case own =>
    intro n hn
    rw [hexternals]
    exact h.own n ((hlabels n).1 hn)
  case defined =>
    intro n hn
    rw [hlabels, hexternals]
    exact h.defined n ((hstatements.flatMap_right _).mem_iff.1 hn)
  case exported =>
    intro n hn
    rw [hlabels, hexternals]
    exact h.exported n ((hstatements.filterMap _).mem_iff.1 hn)
  case fits =>
    have hcode : codeSize (statements macros lines') = codeSize (statements macros lines) :=
      (hstatements.map _).sum_nat
    have hdata : dataSize (statements macros lines') = dataSize (statements macros lines) :=
      (hstatements.map _).sum_nat
    rw [hcode, hdata]
    exact h.fits

end Outline

namespace Program

open Outline

/-- The line is read as a statement of the given sort. -/
def readsAs (macros : MacroTable) (sort : Statement → Bool) (l : SourceLine) : Bool :=
  (Statement.read macros l.text).toOption.any sort

/-- The lines `lines'` are the lines `lines`, with the instructions in the same
order among themselves, and the lines of data too. -/
structure Interleaves (macros : MacroTable) (lines lines' : List SourceLine) : Prop where
  perm : lines'.Perm lines
  code : lines'.filter (readsAs macros Statement.isCode) =
    lines.filter (readsAs macros Statement.isCode)
  data : lines'.filter (readsAs macros Statement.isData) =
    lines.filter (readsAs macros Statement.isData)

/-- The statements of one sort are those of the lines of that sort. -/
theorem statements_filter (macros : MacroTable) (sort : Statement → Bool)
    (lines : List SourceLine) :
    (statements macros lines).filter sort = statements macros (lines.filter (readsAs macros sort)) := by
  rw [statements, statements, List.filter_filterMap, List.filterMap_filter]
  refine List.filterMap_congr fun l _ => ?_
  cases hread : (Statement.read macros l.text).toOption with
  | none => simp [readsAs, hread]
  | some s => simp [readsAs, hread, Option.filter]

theorem Interleaves.statements {macros : MacroTable} {lines lines' : List SourceLine}
    (h : Interleaves macros lines lines') :
    Outline.Interleaves (statements macros lines) (statements macros lines') := by
  constructor
  case perm => exact h.perm.filterMap _
  case code => rw [statements_filter, statements_filter, h.code]
  case data => rw [statements_filter, statements_filter, h.data]

/-- **Code and data may be interleaved freely.** If a program results, then one
that is alike results from every interleaving of its lines, and the same files. -/
theorem alike_of_interleaves {x : Expansion} {p : Program} {lines : List SourceLine}
    (h : ofExpansion x = .ok p) (hlines : Interleaves x.macros x.lines lines) :
    ∃ q, ofExpansion { x with lines } = .ok q ∧ Alike p q ∧
      q.image.objectText? = p.image.objectText? ∧
      q.symbols.entriesText? = p.symbols.entriesText? ∧
      q.image.externalsText? = p.image.externalsText? := by
  obtain ⟨q, hq⟩ := exists_ok_of_acceptable h ((acceptable_of_ok h).perm hlines.perm)
  have halike : Alike p q :=
    alike_of_similar (assembles_of_ok h) (assembles_of_ok hq) hlines.statements.similar
  exact ⟨q, hq, halike, by rw [halike.image], halike.entriesText?, by rw [halike.image]⟩

/-- The sample with its entry in front, its external name at the end and its data
elsewhere. -/
def sampleInterleaved : List SourceLine := [
  ⟨8, ".entry A".toList⟩,
  ⟨1, "A: mov M[r1][r2], r3".toList⟩,
  ⟨4, "lea X, K".toList⟩,
  ⟨5, "add #-1, A".toList⟩,
  ⟨3, "M: .mat [2][3]".toList⟩,
  ⟨6, "cmp r1, r2".toList⟩,
  ⟨9, "E: stop".toList⟩,
  ⟨7, "K: .string \"xyz\"".toList⟩,
  ⟨2, ".extern X".toList⟩]

set_option maxRecDepth 10000 in
theorem sampleInterleaved_interleaves :
    Interleaves sample.macros sample.lines sampleInterleaved :=
  ⟨by decide, rfl, rfl⟩

theorem alike_of_interleaves_sample : sampleInterleaved ≠ sample.lines ∧
    ∃ p q, ofExpansion sample = .ok p ∧
      ofExpansion { sample with lines := sampleInterleaved } = .ok q ∧ Alike p q := by
  obtain ⟨p, hp⟩ := sample_ok
  obtain ⟨q, hq, halike, -⟩ := alike_of_interleaves hp sampleInterleaved_interleaves
  exact ⟨by decide, p, q, hp, hq, halike⟩

end Program
end TenBit
