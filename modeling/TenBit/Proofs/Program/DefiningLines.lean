/-
# The lines that define symbols

A symbol carries the number of a line. It is that of the first line which binds
the name: an external name may be declared again later, but the first
declaration counts. Moving the data area and marking entries change no number.

Key definitions: `SymbolTable.line?`, `Statement.boundName?`, `Outline.definedAt?`.
Key theorems: `Layout.place_notes`, `Layout.run_dated`, `Encoder.line?_place`,
`Program.line?_of_ok`.
-/
import TenBit.Proofs.Memory.Layout
import TenBit.Program.Basic

namespace TenBit

/-- The name that a statement binds. -/
def Statement.boundName? (s : Statement) : Option Text := s.label?.or s.externalName?

/-- The number of the first line that binds a name. -/
def Outline.definedAt? (macros : MacroTable) (lines : List SourceLine) (name : Text) :
    Option Nat :=
  (lines.find? fun l =>
    (Statement.read macros l.text).toOption.bind Statement.boundName? == some name).map
      SourceLine.origin

theorem Outline.definedAt?_append (macros : MacroTable) (ks ls : List SourceLine) (n : Text) :
    definedAt? macros (ks ++ ls) n = (definedAt? macros ks n).or (definedAt? macros ls n) := by
  rw [definedAt?, List.find?_append, Option.map_or]
  rfl

namespace SymbolTable

/-- The number of the line that defined a name. -/
def line? (t : SymbolTable) (name : Text) : Option Nat := (t.get? name).map Symbol.line

theorem line?_insert {t t' : SymbolTable} {s : Symbol} (h : t.insert s = .ok t') (name : Text) :
    t'.line? name = (t.line? name).or (if s.name = name then some s.line else none) := by
  rw [line?, get?_insert h, Option.map_or, line?]
  split <;> rfl

theorem line?_eq_of_map {t t' : SymbolTable}
    (h : t'.symbols.map (fun s => (s.name, s.line)) = t.symbols.map fun s => (s.name, s.line)) :
    t'.line? = t.line? := by
  have hview : ∀ (t : SymbolTable) (n : Text), t.line? n =
      ((t.symbols.map fun s => (s.name, s.line)).find? fun r => r.1 == n).map Prod.snd := by
    intro t n
    rw [line?, get?, List.find?_map, Option.map_map]
    rfl
  funext n
  rw [hview, hview, h]

theorem line?_markEntry {t t' : SymbolTable} {name : Text} (h : t.markEntry name = .ok t') :
    t'.line? = t.line? := by
  unfold markEntry at h
  split at h
  · cases h
  · split at h
    · cases h
    · cases h
      refine line?_eq_of_map ?_
      rw [List.map_map]
      refine List.map_congr_left fun s _ => ?_
      simp only [Function.comp_apply, marked]
      split <;> rfl

theorem line?_relocate (t : SymbolTable) (offset : Nat) :
    (t.relocate offset).1.line? = t.line? := by
  refine line?_eq_of_map ?_
  simp only [relocate]
  induction t.symbols with
  | nil => rfl
  | cons s ss ih =>
    unfold moveData
    split
    · split
      · simp [ih]
      · rfl
    · simp [ih]

end SymbolTable

/-! ### The first pass -/

namespace Layout

open Outline

/-- The second layout has one more definition at most, if the work goes on. -/
def Notes (l l' : Layout) (name? : Option Text) (line : Nat) : Prop :=
  l'.report.isFatal = true ∨
    ∀ n, l'.symbols.line? n =
      (l.symbols.line? n).or (if name? = some n then some line else none)

theorem Notes.none {l l' : Layout} (h : l'.symbols = l.symbols) (line : Nat) :
    Notes l l' none line :=
  Or.inr fun n => by simp [h]

/-- A name that is known keeps its line. -/
theorem Notes.known {l l' : Layout} (h : l'.symbols = l.symbols) {name : Text}
    (hname : l.symbols.get? name ≠ .none) (line : Nat) : Notes l l' (some name) line := by
  refine Or.inr fun n => ?_
  rw [h]
  by_cases hn : name = n
  · subst hn
    obtain ⟨s, hs⟩ := Option.ne_none_iff_exists'.1 hname
    simp [SymbolTable.line?, hs]
  · simp [hn]

theorem define_notes (l : Layout) (name : Text) (kind : SymbolKind) (address line : Nat) :
    Notes l (l.define name kind address line) (some name) line := by
  unfold define
  split
  · exact Or.inl (Report.isFatal_record rfl line)
  · rename_i a _
    split
    · rename_i t ht
      exact Or.inr fun n => by simpa using SymbolTable.line?_insert ht n
    · rename_i e he
      refine Notes.known rfl (fun hnone => ?_) line
      have hok := (dif_pos hnone).symm.trans he
      cases hok

theorem defineLabel_notes (l : Layout) (label : Option Text) (kind : SymbolKind)
    (address line : Nat) : Notes l (l.defineLabel label kind address line) label line := by
  cases label with
  | none => exact Notes.none rfl line
  | some name => exact define_notes l name kind address line

theorem declareExternal_notes (l : Layout) (name : Text) (line : Nat) :
    Notes l (l.declareExternal name line) (some name) line := by
  unfold declareExternal
  split
  · rename_i hknown
    refine Notes.known rfl ?_ line
    intro hnone
    simp [isExternal, hnone] at hknown
  · exact define_notes l name .external 0 line

/-- **One statement** defines the name it binds, unless the name is known. -/
theorem place_notes (l : Layout) (s : Statement) (line : Nat) :
    Notes l (l.place line s) s.boundName? line := by
  cases s with
  | blank => exact Notes.none rfl line
  | comment => exact Notes.none rfl line
  | instruction label i =>
    rw [show (Statement.instruction label i).boundName? = label from Option.or_none]
    exact defineLabel_notes l label .code l.codeEnd line
  | directive label d =>
    cases d with
    | data vs =>
      rw [show (Statement.directive label (.data vs)).boundName? = label from Option.or_none]
      exact defineLabel_notes l label .data l.dataSize line
    | string t =>
      rw [show (Statement.directive label (.string t)).boundName? = label from Option.or_none]
      exact defineLabel_notes l label .data l.dataSize line
    | matrix dimensions vs =>
      rw [show (Statement.directive label (.matrix dimensions vs)).boundName? = label from
        Option.or_none]
      exact defineLabel_notes l label .matrix l.dataSize line
    | entry n => exact Notes.none rfl line
    | external n =>
      exact declareExternal_notes (l.recordIf label.isSome .externalLabelIgnored line) n line

/-- The lines that define the names of a layout are the first that bind them. -/
def Dated (macros : MacroTable) (l : Layout) (lines : List SourceLine) : Prop :=
  ∀ n, l.symbols.line? n = definedAt? macros lines n

theorem step_dated {macros : MacroTable} {l : Layout} {done : List SourceLine}
    (h : l.Dated macros done) (line : SourceLine) :
    (step macros l line).report.isFatal = true ∨
      (step macros l line).Dated macros (done ++ [line]) := by
  unfold step
  cases hread : Statement.read macros line.text with
  | error f =>
    refine Or.inr fun n => ?_
    rw [definedAt?_append, ← h n]
    simp [definedAt?, hread, Except.toOption, record]
  | ok s =>
    rcases place_notes l s line.origin with hfatal | hplace
    · refine Or.inl ?_
      simp [recordIf, Report.recordIf_eq_extend, Report.isFatal_extend, hfatal]
    · refine Or.inr fun n => (hplace n).trans ?_
      rw [definedAt?_append, ← h n]
      congr 1
      simp only [definedAt?, hread, Except.toOption, Option.bind_some, List.find?_singleton]
      split <;> simp_all

/-- **All lines.** The induction is on the lines that are left. -/
theorem run_dated (macros : MacroTable) : ∀ (lines : List SourceLine) {l : Layout}
    {done : List SourceLine}, l.Dated macros done →
    (run macros l lines).report.isFatal = true ∨ (run macros l lines).Dated macros (done ++ lines)
  | [], l, done, h => Or.inr (by simpa [run] using h)
  | line :: lines, l, done, h => by
    unfold run
    by_cases hfatal : l.report.isFatal = true
    · rw [if_pos hfatal]
      exact Or.inl hfatal
    · rw [if_neg hfatal]
      rcases step_dated h line with hstop | hstep
      · rw [run_of_fatal macros hstop]
        exact Or.inl hstop
      · simpa using run_dated macros lines hstep

theorem line?_close (l : Layout) : l.close.symbols.line? = l.symbols.line? := by
  have hrelocate := SymbolTable.line?_relocate l.symbols l.codeEnd
  unfold close
  split
  · rfl
  · split
    · rename_i t hmoved
      rw [hmoved] at hrelocate
      exact hrelocate
    · rename_i t e hmoved
      rw [hmoved] at hrelocate
      exact hrelocate

theorem ofLines_dated {macros : MacroTable} {report : Report} {lines : List SourceLine}
    (h : (ofLines macros report lines).report.isFatal = false) :
    (ofLines macros report lines).Dated macros lines := by
  have hstart : Dated macros { symbols := .empty, report := report.enter .firstPass } [] :=
    fun _ => rfl
  unfold ofLines at h ⊢
  rcases run_dated macros lines hstart with hfatal | hdated
  · rw [close_of_fatal hfatal, hfatal] at h
    cases h
  · rw [List.nil_append] at hdated
    intro n
    rw [line?_close, hdated n]

end Layout

/-! ### The second pass -/

namespace Encoder

theorem symbols_pushSlot (line : Nat) (e : Encoder) (slot : Slot) :
    (e.pushSlot line slot).symbols = e.symbols := by
  cases slot with
  | word w => rfl
  | reference n =>
    simp only [pushSlot, pushAddress]
    split
    · rfl
    · split
      · rfl
      · split <;> rfl

theorem symbols_emit (line : Nat) : ∀ (slots : List Slot) (e : Encoder),
    (e.emit line slots).symbols = e.symbols
  | [], _ => rfl
  | slot :: slots, e => (symbols_emit line slots (e.pushSlot line slot)).trans
      (symbols_pushSlot line e slot)

theorem symbols_addCode (e : Encoder) (line : SourceLine) (i : Instruction) :
    (e.addCode line i).symbols = e.symbols := by
  unfold addCode
  split
  · rfl
  · exact symbols_emit line.origin i.slots e

/-- **One statement** marks a symbol at most. -/
theorem line?_place (e : Encoder) (line : SourceLine) (s : Statement) :
    (e.place line s).symbols.line? = e.symbols.line? := by
  cases s with
  | blank => rfl
  | comment => rfl
  | instruction label i => exact congrArg SymbolTable.line? (symbols_addCode e line i)
  | directive label d =>
    cases d with
    | data vs => rfl
    | string t => rfl
    | matrix dimensions vs => rfl
    | external n => rfl
    | entry n =>
      simp only [place, addEntry]
      split
      · rename_i t ht
        exact SymbolTable.line?_markEntry ht
      · rfl
      · rfl

theorem line?_run (macros : MacroTable) : ∀ (lines : List SourceLine) (e : Encoder),
    (run macros e lines).symbols.line? = e.symbols.line?
  | [], _ => rfl
  | line :: lines, e => by
    unfold run
    split
    · rfl
    · rw [line?_run macros lines, step]
      split
      · rfl
      · exact line?_place e line _

theorem line?_ofLayout (macros : MacroTable) (l : Layout) (lines : List SourceLine) :
    (ofLayout macros l lines).symbols.line? = l.symbols.line? := by
  have hrun := line?_run macros lines { symbols := l.symbols, report := l.report.enter .secondPass }
  unfold ofLayout close
  split
  · exact hrun
  · exact hrun

end Encoder

/-- **A symbol carries the number of the first line that binds its name.** -/
theorem Program.line?_of_ok {x : Expansion} {p : Program} (h : ofExpansion x = .ok p) (n : Text) :
    p.symbols.line? n = Outline.definedAt? x.macros x.lines n := by
  obtain ⟨l, e, rfl, hfatal, rfl, rfl⟩ := Program.eq_of_ok h
  rw [Encoder.line?_ofLayout]
  exact Layout.ofLines_dated hfatal n

end TenBit
