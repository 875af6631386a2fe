/-
# The second pass writes the outline

When the symbols are known, the words of a program are the slots of its
statements, filled one by one. The second pass writes exactly these, in order,
as long as they fit into memory: an instruction is met when there is a cell for
its first word, and then there is one for each of the others. Marking entries on
the way changes no address, so it does not matter when it happens.

Key definitions: `Slot.fill`, `Slot.faults`, `Slot.references`,
`Outline.slots`, `Encoder.problems`, `Encoder.Describes`.
Key theorems: `Encoder.emit_eq_filled`, `Encoder.step_describes`,
`Encoder.run_describes`, `Encoder.ofLayout_describes`.
-/
import TenBit.Memory.Encoding
import TenBit.Proofs.Memory.Layout

namespace TenBit

namespace Slot

variable (places : Text → Option (SymbolKind × Address))

/-- The word that fills a slot. -/
def fill : Slot → Word
  | .word w => w
  | .reference n =>
    match places n with
    | none => .address .zero .absolute
    | some (k, a) => if k = .external then .address .zero .external else .address a .relocatable

/-- What is wrong with a slot. -/
def faults : Slot → List Fault
  | .word _ => []
  | .reference n => if (places n).isNone then [.undefinedSymbol] else []

/-- The use of an external name that a slot makes, if it is filled at an
address. -/
def reference? (address : Option Address) : Slot → Option Reference
  | .word _ => none
  | .reference n =>
    match places n with
    | none => none
    | some (k, _) => if k = .external then address.map fun a => ⟨n, a⟩ else none

/-- The uses of external names in slots that follow `offset` words of code. -/
def references : (offset : Nat) → List Slot → List Reference
  | _, [] => []
  | offset, s :: ss =>
    (s.reference? places (Address.base.advance? offset)).toList ++ references (offset + 1) ss

theorem references_append : ∀ (offset : Nat) (ss ts : List Slot),
    references places offset (ss ++ ts) =
      references places offset ss ++ references places (offset + ss.length) ts
  | _, [], _ => rfl
  | offset, s :: ss, ts => by
    simp only [List.cons_append, references, references_append (offset + 1) ss ts, List.length_cons,
      List.append_assoc]
    rw [show offset + 1 + ss.length = offset + (ss.length + 1) by omega]

end Slot

namespace Statement

/-- The slots of a statement. -/
def slots : Statement → List Slot
  | .instruction _ i => i.slots
  | _ => []

/-- The words a statement puts into the data area. -/
def dataWords : Statement → List Word
  | .directive _ d => d.dataCells.map Word.data
  | _ => []

/-- What is wrong with an entry whose name has the given place. -/
def entryFaults (place : Option (SymbolKind × Address)) : List Fault :=
  match place with
  | none => [.entryUndefined]
  | some (k, _) => if k = .external then [.entryExternal] else []

/-- What the second pass reports about a statement. -/
def encodingFaults (places : Text → Option (SymbolKind × Address)) (s : Statement) : List Fault :=
  match s with
  | .directive _ (.entry n) => entryFaults (places n)
  | s => s.slots.flatMap (Slot.faults places)

theorem length_slots (s : Statement) : s.slots.length = s.codeSize := by
  cases s with
  | instruction l i => exact i.length_slots
  | blank => rfl
  | comment => rfl
  | directive l d => rfl

theorem length_dataWords (s : Statement) : s.dataWords.length = s.dataSize := by
  cases s with
  | directive l d => simp [dataWords, dataSize, Directive.length_dataCells]
  | blank => rfl
  | comment => rfl
  | instruction l i => rfl

end Statement

namespace Outline

/-- The slots of a program. -/
def slots (ss : List Statement) : List Slot := ss.flatMap Statement.slots

/-- The words of the data area of a program. -/
def dataWords (ss : List Statement) : List Word := ss.flatMap Statement.dataWords

/-- The words that are written are as many as were counted. -/
theorem length_slots (ss : List Statement) : (slots ss).length = codeSize ss := by
  simp [slots, codeSize, List.length_flatMap, Statement.length_slots]

theorem length_dataWords (ss : List Statement) : (dataWords ss).length = dataSize ss := by
  simp [dataWords, dataSize, List.length_flatMap, Statement.length_dataWords]

end Outline

namespace Encoder

open Outline

/-! ### The slots of one instruction -/

/-- The state with some slots filled, if there is a cell for each. -/
def filled (e : Encoder) (line : Nat) (slots : List Slot) : Encoder :=
  { e with
    image := { e.image with
      code := e.image.code ++ slots.map (Slot.fill e.symbols.place?)
      references := e.image.references ++
        Slot.references e.symbols.place? e.image.code.length slots }
    report := e.report.extend
      (Diagnostic.all e.report.stage line (slots.flatMap (Slot.faults e.symbols.place?))) }

theorem filled_nil (e : Encoder) (line : Nat) : e.filled line [] = e := by
  simp [filled, Slot.references]

theorem filled_append (e : Encoder) (line : Nat) (ss ts : List Slot) :
    (e.filled line ss).filled line ts = e.filled line (ss ++ ts) := by
  simp [filled, Slot.references_append, Diagnostic.all_append, Report.extend_extend]

theorem nextAddress?_of_lt {i : Image} (h : codeBase + i.code.length < memorySize) :
    i.nextAddress? = some ⟨codeBase + i.code.length, h⟩ :=
  dif_pos h

/-- One slot, if there is a cell for it. -/
theorem pushSlot_eq_filled (e : Encoder) (line : Nat) (s : Slot)
    (h : codeBase + e.image.code.length < memorySize) : pushSlot line e s = e.filled line [s] := by
  cases s with
  | word w => simp [pushSlot, push, filled, Slot.fill, Slot.references, Slot.reference?, Slot.faults]
  | reference n =>
    have haddr : Address.base.advance? e.image.code.length =
        some ⟨codeBase + e.image.code.length, h⟩ := dif_pos h
    simp only [pushSlot, pushAddress, nextAddress?_of_lt h]
    cases hg : e.symbols.get? n with
    | none =>
      have hp : e.symbols.place? n = none := by simp [SymbolTable.place?, hg]
      simp [filled, Slot.fill, Slot.references, Slot.reference?, Slot.faults, hp, push, record,
        Report.record_eq_extend]
    | some s =>
      have hp : e.symbols.place? n = some (s.kind, s.address) := by simp [SymbolTable.place?, hg]
      by_cases hk : s.kind = .external
      · simp [filled, Slot.fill, Slot.references, Slot.reference?, Slot.faults, hp, hk, push, refer,
          haddr]
      · simp [filled, Slot.fill, Slot.references, Slot.reference?, Slot.faults, hp, hk, push]

/-- **Emitting fills the slots**, if there is a cell for each. -/
theorem emit_eq_filled (line : Nat) : ∀ (slots : List Slot) (e : Encoder),
    codeBase + e.image.code.length + slots.length ≤ memorySize →
      e.emit line slots = e.filled line slots
  | [], e, _ => (filled_nil e line).symm
  | s :: slots, e, h => by
    rw [List.length_cons] at h
    have hs := pushSlot_eq_filled e line s (by omega)
    have ih := emit_eq_filled line slots (e.filled line [s]) (by
      simp only [filled, List.length_append, List.length_map, List.length_singleton]
      omega)
    calc e.emit line (s :: slots) = (pushSlot line e s).emit line slots := rfl
      _ = (e.filled line [s]).emit line slots := by rw [hs]
      _ = (e.filled line [s]).filled line slots := ih
      _ = e.filled line (s :: slots) := filled_append e line [s] slots

theorem addCode_eq (e : Encoder) (line : SourceLine) (i : Instruction)
    (hlt : codeBase + e.image.code.length < memorySize)
    (h : codeBase + e.image.code.length + i.slots.length ≤ memorySize) :
    e.addCode line i = (e.filled line.origin i.slots).list
      ⟨.code ⟨codeBase + e.image.code.length, hlt⟩, i.slots.map (Slot.fill e.symbols.place?),
        line.text⟩ := by
  simp only [addCode, nextAddress?_of_lt hlt, emit_eq_filled line.origin i.slots e h]
  simp [filled]

/-! ### One statement -/

/-- The second pass has written the statements `ss`, with the symbols of `t`. -/
structure Describes (e : Encoder) (t : SymbolTable) (ss : List Statement) : Prop where
  stage : e.report.stage = .secondPass
  code : e.image.code = (slots ss).map (Slot.fill t.place?)
  data : e.image.data = dataWords ss
  references : e.image.references = Slot.references t.place? 0 (slots ss)
  places : e.symbols.place? = t.place?
  symbols : ∀ n, e.symbols.binding? n = (t.binding? n).map (Binding.markedBy (entries ss))

theorem Describes.length_code {e : Encoder} {t : SymbolTable} {ss : List Statement}
    (h : e.Describes t ss) : e.image.code.length = codeSize ss := by
  rw [h.code, List.length_map, length_slots]

theorem Describes.length_data {e : Encoder} {t : SymbolTable} {ss : List Statement}
    (h : e.Describes t ss) : e.image.data.length = dataSize ss := by
  rw [h.data, length_dataWords]

theorem entries_append_singleton (ss : List Statement) (s : Statement) :
    entries (ss ++ [s]) = entries ss ++ s.entryName?.toList := by
  rw [entries, List.filterMap_append]
  cases h : s.entryName? <;> simp [entries, h]

theorem slots_append_singleton (ss : List Statement) (s : Statement) :
    slots (ss ++ [s]) = slots ss ++ s.slots := by
  simp [slots]

theorem dataWords_append_singleton (ss : List Statement) (s : Statement) :
    dataWords (ss ++ [s]) = dataWords ss ++ s.dataWords := by
  simp [dataWords]

/-- A statement that writes nothing and marks nothing. -/
theorem Describes.skip {e : Encoder} {t : SymbolTable} {ss : List Statement} {s : Statement}
    (h : e.Describes t ss) (hslots : s.slots = []) (hdata : s.dataWords = [])
    (hentry : s.entryName? = none) : e.Describes t (ss ++ [s]) := by
  have hs : slots (ss ++ [s]) = slots ss := by
    rw [slots_append_singleton, hslots, List.append_nil]
  refine ⟨h.stage, ?_, ?_, ?_, h.places, ?_⟩
  · rw [hs]
    exact h.code
  · rw [dataWords_append_singleton, hdata, List.append_nil]
    exact h.data
  · rw [hs]
    exact h.references
  · rw [entries_append_singleton, hentry, Option.toList_none, List.append_nil]
    exact h.symbols

theorem Describes.addCode {e : Encoder} {t : SymbolTable} {ss : List Statement}
    (h : e.Describes t ss) (line : SourceLine) (label : Option Text) (i : Instruction)
    (hfits : codeBase + codeSize (ss ++ [.instruction label i]) ≤ memorySize) :
    (e.addCode line i).Describes t (ss ++ [.instruction label i]) ∧
      (e.addCode line i).report = e.report.extend (Diagnostic.all .secondPass line.origin
        (i.slots.flatMap (Slot.faults t.place?))) := by
  have hcount : codeSize (ss ++ [.instruction label i]) = codeSize ss + i.wordCount := by
    simp [Statement.codeSize]
  have hlen := h.length_code
  have hpos := i.wordCount_pos
  rw [hcount] at hfits
  rw [addCode_eq e line i (by omega) (by rw [i.length_slots]; omega)]
  have hs : slots (ss ++ [.instruction label i]) = slots ss ++ i.slots :=
    slots_append_singleton ss _
  refine ⟨⟨h.stage, ?_, ?_, ?_, h.places, ?_⟩, ?_⟩
  · simp only [list, filled]
    rw [hs, List.map_append, h.code, h.places]
  · rw [dataWords_append_singleton]
    simpa [list, filled, Statement.dataWords] using h.data
  · simp only [list, filled]
    rw [hs, Slot.references_append, h.references, h.places, hlen, length_slots, Nat.zero_add]
  · rw [entries_append_singleton]
    simpa [list, filled, Statement.entryName?] using h.symbols
  · simp only [list, filled]
    rw [h.places, h.stage]

theorem Describes.addData {e : Encoder} {t : SymbolTable} {ss : List Statement}
    (h : e.Describes t ss) (line : SourceLine) (label : Option Text) {d : Directive}
    (hd : d.takesMemory = true) :
    (e.addData line d).Describes t (ss ++ [.directive label d]) := by
  have hentry : (Statement.directive label d).entryName? = none := by
    cases d with
    | data vs => rfl
    | string t => rfl
    | matrix dimensions vs => rfl
    | entry n => cases hd
    | external n => cases hd
  have hs : slots (ss ++ [.directive label d]) = slots ss := by
    rw [slots_append_singleton]
    exact List.append_nil _
  refine ⟨h.stage, ?_, ?_, ?_, h.places, ?_⟩
  · rw [hs]
    exact h.code
  · rw [dataWords_append_singleton]
    simp only [Encoder.addData, list, h.data, Statement.dataWords]
  · rw [hs]
    exact h.references
  · rw [entries_append_singleton, hentry, Option.toList_none, List.append_nil]
    exact h.symbols

theorem Describes.addEntry {e : Encoder} {t : SymbolTable} {ss : List Statement}
    (h : e.Describes t ss) (line : Nat) (label : Option Text) (n : Text) :
    (e.addEntry line n).Describes t (ss ++ [.directive label (.entry n)]) ∧
      (e.addEntry line n).report = e.report.extend
        (Diagnostic.all .secondPass line (Statement.entryFaults (t.place? n))) := by
  have hs : slots (ss ++ [.directive label (.entry n)]) = slots ss := by
    rw [slots_append_singleton]
    exact List.append_nil _
  have hw : dataWords (ss ++ [.directive label (.entry n)]) = dataWords ss := by
    rw [dataWords_append_singleton]
    exact List.append_nil _
  have hn : entries (ss ++ [.directive label (.entry n)]) = entries ss ++ [n] :=
    entries_append_singleton ss _
  -- a refused mark leaves the symbols alone, and there is nothing to be marked
  have hrefused : (∀ b, t.binding? n = some b → b.kind = .external) → ∀ m,
      e.symbols.binding? m =
        (t.binding? m).map (Binding.markedBy (entries (ss ++ [.directive label (.entry n)]))) := by
    intro hext m
    rw [h.symbols, hn]
    refine Option.map_congr fun b hb => ?_
    rw [Binding.markedBy_append]
    by_cases hm : m = n
    · have hk := hext b (hm ▸ hb)
      simp [Binding.markedBy, hk]
    · have hbn : b.name ≠ n := by
        rw [SymbolTable.binding?_name hb]
        exact hm
      simp only [Binding.markedBy, List.mem_singleton]
      split <;> simp [hbn]
  have hkind := t.place?_map_kind n
  unfold Encoder.addEntry
  cases hp : t.place? n with
  | none =>
    rw [SymbolTable.markEntry_of_none (by rw [h.places, hp])]
    have hnone : t.binding? n = none := SymbolTable.place?_eq_none_iff.1 hp
    refine ⟨⟨h.stage, hs ▸ h.code, hw ▸ h.data, hs ▸ h.references, h.places,
      hrefused (by simp [hnone])⟩, ?_⟩
    rw [← h.stage]
    exact Report.record_eq_extend _ _ _
  | some place =>
    obtain ⟨k, a⟩ := place
    by_cases hk : k = .external
    · subst hk
      rw [SymbolTable.markEntry_of_external (by rw [h.places, hp])]
      refine ⟨⟨h.stage, hs ▸ h.code, hw ▸ h.data, hs ▸ h.references, h.places,
        hrefused fun b hb => ?_⟩, ?_⟩
      · rw [hp, hb] at hkind
        exact (Option.some.inj hkind).symm
      · rw [← h.stage]
        exact Report.record_eq_extend _ _ _
    · obtain ⟨t', ht', hplaces, hmarked⟩ :=
        SymbolTable.markEntry_of_some (t := e.symbols) (by rw [h.places, hp]) hk
      rw [ht']
      refine ⟨⟨h.stage, hs ▸ h.code, hw ▸ h.data, hs ▸ h.references, hplaces.trans h.places,
        fun m => ?_⟩, ?_⟩
      · rw [hmarked, h.symbols, hn, Option.map_map]
        refine Option.map_congr fun b _ => ?_
        exact (Binding.markedBy_append _ _ b).symm
      · simp [Statement.entryFaults, hk]

/-- **One statement of the second pass**, if its code still fits. -/
theorem Describes.place {e : Encoder} {t : SymbolTable} {ss : List Statement}
    (h : e.Describes t ss) (line : SourceLine) (s : Statement)
    (hfits : codeBase + codeSize (ss ++ [s]) ≤ memorySize) :
    (e.place line s).Describes t (ss ++ [s]) ∧
      (e.place line s).report = e.report.extend
        (Diagnostic.all .secondPass line.origin (s.encodingFaults t.place?)) := by
  have hquiet : e.report = e.report.extend (Diagnostic.all .secondPass line.origin []) := by simp
  cases s with
  | blank => exact ⟨h.skip rfl rfl rfl, hquiet⟩
  | comment => exact ⟨h.skip rfl rfl rfl, hquiet⟩
  | instruction label i => exact h.addCode line label i hfits
  | directive label d =>
    cases d with
    | data vs => exact ⟨h.addData line label rfl, hquiet⟩
    | string t => exact ⟨h.addData line label rfl, hquiet⟩
    | matrix dimensions vs => exact ⟨h.addData line label rfl, hquiet⟩
    | entry n => exact h.addEntry line.origin label n
    | external n => exact ⟨h.skip rfl rfl rfl, hquiet⟩

/-! ### All lines -/

/-- What the second pass reports about a line. What cannot be read was reported
before. -/
def faults (places : Text → Option (SymbolKind × Address)) : Except Fault Statement → List Fault
  | .error _ => []
  | .ok s => s.encodingFaults places

/-- What the second pass reports about some lines. -/
def problems (macros : MacroTable) (places : Text → Option (SymbolKind × Address))
    (lines : List SourceLine) : List Diagnostic :=
  lines.flatMap fun line =>
    Diagnostic.all .secondPass line.origin (faults places (Statement.read macros line.text))

theorem severity_of_mem_slotFaults {places : Text → Option (SymbolKind × Address)}
    {slots : List Slot} {f : Fault} (hf : f ∈ slots.flatMap (Slot.faults places)) :
    f.severity = .error := by
  obtain ⟨slot, -, hf⟩ := List.mem_flatMap.1 hf
  cases slot with
  | word w => cases hf
  | reference n =>
    simp only [Slot.faults] at hf
    split at hf
    · rw [List.mem_singleton.1 hf]
      rfl
    · cases hf

/-- Whatever the second pass finds is an error. -/
theorem severity_of_mem_faults {places : Text → Option (SymbolKind × Address)}
    {r : Except Fault Statement} {f : Fault} (hf : f ∈ faults places r) : f.severity = .error := by
  cases r with
  | error g => cases hf
  | ok s =>
    simp only [faults, Statement.encodingFaults] at hf
    split at hf
    · unfold Statement.entryFaults at hf
      split at hf
      · rw [List.mem_singleton.1 hf]
        rfl
      · split at hf
        · rw [List.mem_singleton.1 hf]
          rfl
        · cases hf
    · exact severity_of_mem_slotFaults hf

theorem severity_of_mem_problems {macros : MacroTable}
    {places : Text → Option (SymbolKind × Address)} {lines : List SourceLine} {d : Diagnostic}
    (hd : d ∈ problems macros places lines) : d.fault.severity = .error := by
  obtain ⟨line, -, hd⟩ := List.mem_flatMap.1 hd
  obtain ⟨f, hf, rfl⟩ := List.mem_map.1 hd
  exact severity_of_mem_faults hf

/-- There are only notes from the second pass if it has nothing to say about any
statement. -/
theorem notes_problems_iff {macros : MacroTable} {places : Text → Option (SymbolKind × Address)}
    {lines : List SourceLine} :
    (∀ d ∈ problems macros places lines, d.fault.severity = .note) ↔
      ∀ s ∈ statements macros lines, s.encodingFaults places = [] := by
  constructor
  · intro h s hs
    obtain ⟨line, hline, hr⟩ := mem_statements_iff.1 hs
    rw [List.eq_nil_iff_forall_not_mem]
    intro f hf
    -- a fault of the statement would be a problem of its line, and an error
    have hd : (⟨f, line.origin, .secondPass⟩ : Diagnostic) ∈ problems macros places lines := by
      refine List.mem_flatMap.2 ⟨line, hline, ?_⟩
      rw [hr]
      exact List.mem_map_of_mem hf
    have hnote := h _ hd
    rw [severity_of_mem_problems hd] at hnote
    cases hnote
  · intro h d hd
    obtain ⟨line, hline, hd⟩ := List.mem_flatMap.1 hd
    obtain ⟨f, hf, rfl⟩ := List.mem_map.1 hd
    cases hr : Statement.read macros line.text with
    | error g =>
      rw [hr] at hf
      cases hf
    | ok s =>
      have hnil := h s (mem_statements_iff.2 ⟨line, hline, hr⟩)
      rw [hr, faults, hnil] at hf
      cases hf

theorem problems_not_fatal (macros : MacroTable) (places : Text → Option (SymbolKind × Address))
    {r : Report} (hr : r.isFatal = false) (lines : List SourceLine) :
    (r.extend (problems macros places lines)).isFatal = false := by
  rw [Report.isFatal_extend, hr, Bool.false_or, List.any_eq_false]
  intro d hd
  simp [Fault.isFatal_of_error (severity_of_mem_problems hd)]

/-- **One line of the second pass**, if its code still fits. -/
theorem step_describes {macros : MacroTable} {e : Encoder} {t : SymbolTable} {ss : List Statement}
    (h : e.Describes t ss) (line : SourceLine)
    (hfits : codeBase + codeSize (ss ++ (Statement.read macros line.text).toOption.toList) ≤
      memorySize) :
    (step macros e line).Describes t (ss ++ (Statement.read macros line.text).toOption.toList) ∧
      (step macros e line).report = e.report.extend (Diagnostic.all .secondPass line.origin
        (faults t.place? (Statement.read macros line.text))) := by
  unfold step
  cases hr : Statement.read macros line.text with
  | error f =>
    refine ⟨?_, by simp [faults]⟩
    simpa [Except.toOption] using h
  | ok s =>
    rw [hr] at hfits
    exact h.place line s hfits

theorem Describes.step_not_fatal {macros : MacroTable} {e : Encoder} {t : SymbolTable}
    {ss : List Statement} (h : e.Describes t ss) (line : SourceLine)
    (he : e.report.isFatal = false)
    (hfits : codeBase + codeSize (ss ++ (Statement.read macros line.text).toOption.toList) ≤
      memorySize) : (step macros e line).report.isFatal = false := by
  rw [(step_describes h line hfits).2]
  refine Report.isFatal_extend_all he fun f hf => ?_
  exact Fault.isFatal_of_error (severity_of_mem_faults hf)

/-- **The second pass over a program that fits.** The invariant is `Describes`
for the statements written so far. -/
theorem run_describes (macros : MacroTable) {t : SymbolTable} : ∀ (lines : List SourceLine)
    (e : Encoder) (ss : List Statement), e.Describes t ss → e.report.isFatal = false →
      codeBase + codeSize (ss ++ statements macros lines) ≤ memorySize →
      (run macros e lines).Describes t (ss ++ statements macros lines) ∧
        (run macros e lines).report = e.report.extend (problems macros t.place? lines)
  | [], e, ss, h, _, _ => by
    simpa [run, problems, statements] using h
  | line :: lines, e, ss, h, he, hfits => by
    rw [statements_cons, ← List.append_assoc] at hfits ⊢
    have hfirst : codeBase +
        codeSize (ss ++ (Statement.read macros line.text).toOption.toList) ≤ memorySize := by
      rw [codeSize_append] at hfits
      omega
    obtain ⟨hs, hreport⟩ := step_describes h line hfirst
    have hs' := h.step_not_fatal line he hfirst
    obtain ⟨ih, ihreport⟩ := run_describes macros lines _ _ hs hs' hfits
    have hrun : run macros e (line :: lines) = run macros (step macros e line) lines := by
      simp [run, he]
    rw [hrun]
    refine ⟨ih, ?_⟩
    rw [ihreport, hreport, Report.extend_extend, problems, problems, List.flatMap_cons]

theorem describes_start (l : Layout) :
    Describes { symbols := l.symbols, report := l.report.enter .secondPass } l.symbols [] :=
  ⟨rfl, rfl, rfl, rfl, rfl, fun n => by
    cases l.symbols.binding? n <;> simp [entries]⟩

/-- **The encoding of a program that fits.** It has the sizes of the layout, so
nothing is reported when the passes are compared. -/
theorem ofLayout_describes {macros : MacroTable} {l : Layout} {lines : List SourceLine}
    (h : l.Finished (statements macros lines)) (hl : l.report.isFatal = false)
    (hfits : Fits (statements macros lines)) :
    (ofLayout macros l lines).Describes l.symbols (statements macros lines) ∧
      (ofLayout macros l lines).report =
        (l.report.enter .secondPass).extend (problems macros l.symbols.place? lines) := by
  have hcode : codeBase + codeSize ([] ++ statements macros lines) ≤ memorySize := by
    rw [Fits] at hfits
    rw [List.nil_append]
    omega
  obtain ⟨hrun, hreport⟩ := run_describes macros lines _ [] (describes_start l) hl hcode
  have hagrees : Encoder.agrees
      (run macros { symbols := l.symbols, report := l.report.enter .secondPass } lines) l = true := by
    simp only [agrees, hrun.length_code, hrun.length_data, List.nil_append, h.codeSize, h.dataSize,
      beq_self_eq_true, Bool.and_self]
  have hclose : ofLayout macros l lines =
      run macros { symbols := l.symbols, report := l.report.enter .secondPass } lines := by
    simp [ofLayout, close, hagrees]
  rw [hclose]
  exact ⟨hrun, hreport⟩

end Encoder
end TenBit
