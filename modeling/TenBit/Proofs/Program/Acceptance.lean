/-
# Which programs are accepted

Whether a program results is decided by two walks over its lines, each of which
goes on after an error. What they decide does not depend on the order of the
lines: every line can be read; labels are distinct and not external; every name
that is used is a label or external; every entry is a label and not external;
code and data fit into memory.

Key definitions: `Outline.Acceptable`.
Key theorems: `Instruction.reference_mem_slots_iff`,
`Statement.encodingFaults_eq_nil_iff`, `Program.isOk_iff_acceptable`.
-/
import TenBit.Proofs.Program.Assembly
import TenBit.Proofs.Program.Names

namespace TenBit

/-! ### What the second pass asks of a statement -/

namespace Instruction

theorem reference_mem_slotsOf_iff (lone : Register → Word) {o : Option WrittenOperand} {n : Text} :
    Slot.reference n ∈ slotsOf lone o ↔ n ∈ (o.toList.map WrittenOperand.operand).filterMap
      Operand.name? := by
  cases o with
  | none => simp [slotsOf]
  | some w =>
    simp only [slotsOf, Option.toList_some, List.map_singleton]
    cases w.operand with
    | immediate v => simp [Operand.slots, Operand.name?]
    | direct m => simp [Operand.slots, Operand.name?]
    | matrix m r c => simp [Operand.slots, Operand.name?]
    | register r => simp [Operand.slots, Operand.name?]

/-- The slots of an instruction refer to the names of its operands. Two registers
share a word, but name nothing. -/
theorem reference_mem_slots_iff {i : Instruction} {n : Text} :
    Slot.reference n ∈ i.slots ↔ n ∈ i.operands.filterMap Operand.name? := by
  have hoperands : n ∈ i.operands.filterMap Operand.name? ↔
      n ∈ (i.source.toList.map WrittenOperand.operand).filterMap Operand.name? ∨
        n ∈ (i.destination.toList.map WrittenOperand.operand).filterMap Operand.name? := by
    rw [operands, List.map_append, List.filterMap_append, List.mem_append]
  rw [hoperands, slots, List.mem_cons, operandSlots]
  simp only [reduceCtorEq, false_or]
  cases hshared : i.sharedRegisters? with
  | none => rw [List.mem_append, reference_mem_slotsOf_iff, reference_mem_slotsOf_iff]
  | some pair =>
    obtain ⟨hs, hd⟩ := sharedRegisters?_eq_some_iff.1 hshared
    obtain ⟨ws, hws, hs⟩ := Option.map_eq_some_iff.1 hs
    obtain ⟨wd, hwd, hd⟩ := Option.map_eq_some_iff.1 hd
    simp [hws, hwd, hs, hd, Operand.name?]

end Instruction

namespace Statement

variable {places : Text → Option (SymbolKind × Address)}

theorem slotFaults_eq_nil_iff (i : Instruction) :
    i.slots.flatMap (Slot.faults places) = [] ↔
      ∀ n ∈ i.operands.filterMap Operand.name?, places n ≠ none := by
  rw [List.flatMap_eq_nil_iff]
  constructor
  · intro h n hn hnone
    have hnil := h _ (Instruction.reference_mem_slots_iff.2 hn)
    simp [Slot.faults, hnone] at hnil
  · intro h slot hslot
    cases slot with
    | word w => rfl
    | reference n =>
      have hplace := h n (Instruction.reference_mem_slots_iff.1 hslot)
      simp [Slot.faults, hplace]

theorem entryFaults_eq_nil_iff {place : Option (SymbolKind × Address)} :
    entryFaults place = [] ↔ ∃ k, place.map Prod.fst = some k ∧ k ≠ .external := by
  cases place with
  | none => simp [entryFaults]
  | some place => simp [entryFaults]

/-- **What the second pass asks of a statement**: the names it uses are known,
and the name it exports is one of this program. -/
theorem encodingFaults_eq_nil_iff (s : Statement) :
    s.encodingFaults places = [] ↔ (∀ n ∈ s.operandNames, places n ≠ none) ∧
      ∀ n, s.entryName? = some n → ∃ k, (places n).map Prod.fst = some k ∧ k ≠ .external := by
  cases s with
  | blank => simp [encodingFaults, slots, operandNames, entryName?]
  | comment => simp [encodingFaults, slots, operandNames, entryName?]
  | instruction label i =>
    show i.slots.flatMap (Slot.faults places) = [] ↔ _
    rw [slotFaults_eq_nil_iff]
    simp [operandNames, entryName?]
  | directive label d =>
    cases d with
    | data vs => simp [encodingFaults, slots, operandNames, entryName?]
    | string t => simp [encodingFaults, slots, operandNames, entryName?]
    | matrix dimensions vs => simp [encodingFaults, slots, operandNames, entryName?]
    | external n => simp [encodingFaults, slots, operandNames, entryName?]
    | entry n =>
      rw [encodingFaults, entryFaults_eq_nil_iff]
      simp [operandNames, entryName?]

end Statement

namespace Outline

/-- The rules for a program. -/
structure Acceptable (macros : MacroTable) (lines : List SourceLine) : Prop where
  readable : ∀ l ∈ lines, ∃ s, Statement.read macros l.text = .ok s
  distinct : (labels (statements macros lines)).Nodup
  own : ∀ n ∈ labels (statements macros lines), n ∉ externals (statements macros lines)
  defined : ∀ n ∈ operandNames (statements macros lines),
    n ∈ labels (statements macros lines) ∨ n ∈ externals (statements macros lines)
  exported : ∀ n ∈ entries (statements macros lines),
    n ∈ labels (statements macros lines) ∧ n ∉ externals (statements macros lines)
  fits : codeBase + codeSize (statements macros lines) + dataSize (statements macros lines) ≤
    memorySize

/-- What the second pass asks of a program. -/
theorem encodingFaults_eq_nil_iff {places : Text → Option (SymbolKind × Address)}
    {ss : List Statement} : (∀ s ∈ ss, s.encodingFaults places = []) ↔
      (∀ n ∈ operandNames ss, places n ≠ none) ∧
        ∀ n ∈ entries ss, ∃ k, (places n).map Prod.fst = some k ∧ k ≠ .external := by
  simp only [Statement.encodingFaults_eq_nil_iff, operandNames, entries, List.mem_flatMap,
    List.mem_filterMap]
  constructor
  · intro h
    constructor
    · rintro n ⟨s, hs, hn⟩
      exact (h s hs).1 n hn
    · rintro n ⟨s, hs, hn⟩
      exact (h s hs).2 n hn
  · rintro ⟨huses, hentries⟩ s hs
    exact ⟨fun n hn => huses n ⟨s, hs, hn⟩, fun n hn => hentries n ⟨s, hs, hn⟩⟩

/-- A name is bound if it is a label or external. -/
theorem find_ne_none_iff {ss : List Statement} {n : Text} :
    Binding.find n (bindings ss) ≠ none ↔ n ∈ labels ss ∨ n ∈ externals ss := by
  rw [mem_labels_iff, mem_externals_iff, Ne, Binding.find_eq_none_iff]
  constructor
  · intro h
    by_contra hnone
    refine h fun b hb hname => hnone ?_
    by_cases hk : b.kind = .external
    · exact Or.inr ⟨b, hb, hname, hk⟩
    · exact Or.inl ⟨b, hb, hname, hk⟩
  · rintro (⟨b, hb, hname, -⟩ | ⟨b, hb, hname, -⟩) hnone
    · exact hnone b hb hname
    · exact hnone b hb hname

/-- In a consistent program, a name that is bound but not external is a label. -/
theorem find_own_iff {ss : List Statement} (hss : ∀ s ∈ ss, s.Sound) (h : Consistent ss)
    {n : Text} : (∃ k, (Binding.find n (bindings ss)).map Binding.kind = some k ∧ k ≠ .external) ↔
      n ∈ labels ss ∧ n ∉ externals ss := by
  constructor
  · rintro ⟨k, hk, hne⟩
    obtain ⟨b, hb, rfl⟩ := Option.map_eq_some_iff.1 hk
    obtain ⟨hmem, hname⟩ := Binding.find_some hb
    have hlabel := mem_labels_iff.2 ⟨b, hmem, hname, hne⟩
    exact ⟨hlabel, ((consistent_iff ss).1 h).2 n hlabel⟩
  · rintro ⟨hlabel, -⟩
    obtain ⟨b, hb, hname, hk⟩ := mem_labels_iff.1 hlabel
    refine ⟨b.kind, ?_, hk⟩
    rw [(find_bindings_iff hss h).2 ⟨hb, hname⟩, Option.map_some]

end Outline

namespace Program

open Outline

/-- The first pass of a program that fits places the names of its outline. -/
theorem laidOut_places {x : Expansion} (hx : x.report.isFatal = false)
    (hfits : Fits (statements x.macros x.lines)) (n : Text) :
    ((laidOut x).place? n).map Prod.fst =
      (Binding.find n (bindings (statements x.macros x.lines))).map Binding.kind := by
  rw [SymbolTable.place?_map_kind, laidOut, (Layout.ofLines_finished hx hfits).1.symbols,
    Option.map_map]
  simp [Function.comp_def]

/-- What the passes say about a program that fits, if nothing was wrong before. -/
theorem notes_problems_iff {x : Expansion} (hx : x.report.isFatal = false)
    (hfits : Fits (statements x.macros x.lines)) :
    (∀ d ∈ problems x, d.fault.severity = .note) ↔ Acceptable x.macros x.lines := by
  have hplaces := laidOut_places hx hfits
  have hnone : ∀ n, (laidOut x).place? n ≠ none ↔
      Binding.find n (bindings (statements x.macros x.lines)) ≠ none := by
    intro n
    have hn : (laidOut x).place? n = none ↔
        Binding.find n (bindings (statements x.macros x.lines)) = none := by
      rw [← Option.map_eq_none_iff (f := Prod.fst), hplaces, Option.map_eq_none_iff]
    exact not_congr hn
  have hsound := sound_of_mem_statements x.macros x.lines
  rw [problems, List.forall_mem_append, Encoder.notes_problems_iff,
    Layout.notes_problems_iff x.macros x.lines [] List.Pairwise.nil, List.nil_append,
    encodingFaults_eq_nil_iff]
  simp only [hnone, hplaces, find_ne_none_iff]
  constructor
  · rintro ⟨⟨hread, hconsistent⟩, huses, hentries⟩
    obtain ⟨hdistinct, hown⟩ := (consistent_iff _).1 hconsistent
    exact ⟨hread, hdistinct, hown, huses,
      fun n hn => (find_own_iff hsound hconsistent).1 (hentries n hn), hfits⟩
  · intro h
    have hconsistent := (consistent_iff _).2 ⟨h.distinct, h.own⟩
    exact ⟨⟨h.readable, hconsistent⟩, h.defined,
      fun n hn => (find_own_iff hsound hconsistent).2 (h.exported n hn)⟩

/-- A program results exactly if there are only notes about its source and it
keeps the rules. -/
theorem exists_ok_iff_acceptable {x : Expansion} : (∃ p, ofExpansion x = .ok p) ↔
    (∀ d ∈ x.report.diagnostics, d.fault.severity = .note) ∧ Acceptable x.macros x.lines := by
  have hfatal : (∀ d ∈ x.report.diagnostics, d.fault.severity = .note) →
      x.report.isFatal = false := fun hnotes =>
    Report.isFatal_eq_false_iff.2 fun d hd => Fault.isFatal_of_note (hnotes d hd)
  rw [exists_ok_iff, List.forall_mem_append]
  constructor
  · rintro ⟨hfits, hnotes, hproblems⟩
    exact ⟨hnotes, (notes_problems_iff (hfatal hnotes) hfits).1 hproblems⟩
  · rintro ⟨hnotes, h⟩
    exact ⟨h.fits, hnotes, (notes_problems_iff (hfatal hnotes) h.fits).2 h⟩

theorem acceptable_of_ok {x : Expansion} {p : Program} (h : ofExpansion x = .ok p) :
    Acceptable x.macros x.lines :=
  (exists_ok_iff_acceptable.1 ⟨p, h⟩).2

/-- A program results again if other lines that keep the rules take the place of
its own. -/
theorem exists_ok_of_acceptable {x : Expansion} {p : Program} (h : ofExpansion x = .ok p)
    {lines : List SourceLine} (hlines : Acceptable x.macros lines) :
    ∃ q, ofExpansion { x with lines } = .ok q :=
  exists_ok_iff_acceptable.2 ⟨(exists_ok_iff_acceptable.1 ⟨p, h⟩).1, hlines⟩

/-- **A program is accepted exactly if it keeps the rules.** There are only notes
about one that is accepted, and any other is refused with a report. -/
theorem isOk_iff_acceptable {x : Expansion} (hx : x.report.diagnostics = []) :
    ((∃ p, ofExpansion x = .ok p) ↔ Acceptable x.macros x.lines) ∧
      (∀ p, ofExpansion x = .ok p → ∀ d ∈ p.report.diagnostics, d.fault.severity = .note) ∧
      (¬ Acceptable x.macros x.lines → ∃ r, ofExpansion x = .error r) := by
  have hfatal : x.report.isFatal = false := by
    rw [Report.isFatal_eq_false_iff, hx]
    exact List.forall_mem_nil _
  have hiff : (∃ p, ofExpansion x = .ok p) ↔ Acceptable x.macros x.lines := by
    rw [exists_ok_iff, hx, List.nil_append]
    constructor
    · rintro ⟨hfits, hnotes⟩
      exact (notes_problems_iff hfatal hfits).1 hnotes
    · intro h
      exact ⟨h.fits, (notes_problems_iff hfatal h.fits).2 h⟩
  refine ⟨hiff, fun p hp => (assembles_of_ok hp).notes, fun hnot => ?_⟩
  cases hresult : ofExpansion x with
  | ok p => exact absurd (hiff.1 ⟨p, hresult⟩) hnot
  | error r => exact ⟨r, rfl⟩

theorem isOk_iff_acceptable_sample : sample.report.diagnostics = [] ∧
    Acceptable sample.macros sample.lines :=
  ⟨rfl, (isOk_iff_acceptable (x := sample) rfl).1.1 sample_ok⟩

end Program
end TenBit
