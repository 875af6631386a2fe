/-
# The first pass finds the outline

As long as code and data fit into memory, the state of the first pass is known
from the statements it has seen: its counters are their sizes, a look-up gives
the first binding of the name, and what it reported about a line depends on that
line and on the names bound before. Once they do not fit the pass is stopped.
So the pass is fatal exactly if the program as a whole does not fit, and moving
the data area behind the code never fails.

Key definitions: `Layout.faults`, `Layout.problems`, `Layout.Describes`,
`Layout.Finished`.
Key theorems: `Layout.step_describes`, `Layout.run_describes`,
`Layout.run_overflow`, `Layout.ofLines_finished`, `Layout.isFatal_ofLines_iff`.
-/
import TenBit.Memory.Layout
import TenBit.Proofs.Program.Outline
import TenBit.Proofs.Report.Growth
import TenBit.Proofs.Statement.Refusal

namespace TenBit

/-- The note about a label that defines nothing. -/
def Statement.ignoredLabel : Statement → List Fault
  | .directive label (.entry _) => if label.isSome then [.entryLabelIgnored] else []
  | .directive label (.external _) => if label.isSome then [.externalLabelIgnored] else []
  | _ => []

theorem Statement.ignoredLabel_of_takesMemory (label : Option Text) {d : Directive}
    (hd : d.takesMemory = true) : (Statement.directive label d).ignoredLabel = [] := by
  cases d with
  | data vs => rfl
  | string t => rfl
  | matrix dimensions vs => rfl
  | entry n => cases hd
  | external n => cases hd

/-- What is wrong with a binding, given those known before. Only an external name
may be declared again. -/
def Binding.clash (known : Text → Option Binding) (b : Option Binding) : List Fault :=
  match b with
  | none => []
  | some b =>
    match known b.name with
    | none => []
    | some a => if a.kind = .external ∧ b.kind = .external then [] else [.duplicateSymbol]

namespace Layout

open Outline

/-- What the first pass reports about a line that comes after the statements
`before`. -/
def faults (before : List Statement) : Except Fault Statement → List Fault
  | .error f => [f]
  | .ok s =>
    s.ignoredLabel ++ Binding.clash (fun n => Binding.find n (bindings before))
      (s.binding? (codeBase + Outline.codeSize before) (Outline.dataSize before))

/-- What the first pass reports about lines that come after the statements
`before`. -/
def problems (macros : MacroTable) : List Statement → List SourceLine → List Diagnostic
  | _, [] => []
  | before, line :: lines =>
    let r := Statement.read macros line.text
    Diagnostic.all .firstPass line.origin (faults before r) ++
      problems macros (before ++ r.toOption.toList) lines

/-- The layout is the one of some statements. -/
structure Describes (l : Layout) (ss : List Statement) : Prop where
  stage : l.report.stage = .firstPass
  codeSize : l.codeSize = Outline.codeSize ss
  dataSize : l.dataSize = Outline.dataSize ss
  symbols : ∀ n, l.symbols.binding? n = Binding.find n (bindings ss)

theorem Describes.codeEnd {l : Layout} {ss : List Statement} (h : l.Describes ss) :
    l.codeEnd = codeBase + Outline.codeSize ss := by
  rw [Layout.codeEnd, h.codeSize]

/-! ### Defining a name

A layout that binds a name differs from the one before in its symbols, and in
its report if the name was bound already. -/

/-- The second layout is the first with at most one more binding. -/
structure Binds (l l' : Layout) (b : Option Binding) (line : Nat) : Prop where
  codeSize : l'.codeSize = l.codeSize
  dataSize : l'.dataSize = l.dataSize
  symbols : ∀ n, l'.symbols.binding? n = (l.symbols.binding? n).or (Binding.find n b.toList)
  report : l'.report =
    l.report.extend (Diagnostic.all l.report.stage line (Binding.clash l.symbols.binding? b))

theorem Binds.none (l : Layout) (line : Nat) : Binds l l none line :=
  ⟨rfl, rfl, fun _ => by simp [Binding.find], by simp [Binding.clash]⟩

/-- A name that is bound keeps its binding. -/
theorem binding?_or_find {t : SymbolTable} {b : Binding} (h : t.binding? b.name ≠ none) (n : Text) :
    (t.binding? n).or (Binding.find n [b]) = t.binding? n := by
  by_cases hn : b.name = n
  · subst hn
    obtain ⟨a, ha⟩ := Option.ne_none_iff_exists'.1 h
    rw [ha, Option.some_or]
  · have hnone : Binding.find n [b] = .none := by simp [Binding.find, hn]
    rw [hnone, Option.or_none]

theorem define_binds (l : Layout) {name : Text} {kind : SymbolKind} {address : Nat} (line : Nat)
    (ha : address < memorySize)
    (hk : kind = .external → ∀ a, l.symbols.binding? name = some a → a.kind ≠ .external) :
    Binds l (l.define name kind address line) (some { name, kind, address }) line := by
  have hof : Address.ofNat? address = some ⟨address, ha⟩ := dif_pos ha
  let s : Symbol := { name, address := ⟨address, ha⟩, kind, line }
  cases hb : l.symbols.binding? name with
  | none =>
    obtain ⟨t, ht, hlook⟩ := SymbolTable.insert_of_new (s := s) hb
    have hd : l.define name kind address line = { l with symbols := t } := by
      simp only [define, hof]
      rw [show l.symbols.insert { name, address := ⟨address, ha⟩, kind, line } = .ok t from ht]
    rw [hd]
    exact ⟨rfl, rfl, hlook, by simp [hb, Binding.clash]⟩
  | some a =>
    have hne : l.symbols.binding? s.name ≠ .none := by
      rw [show s.name = name from rfl, hb]
      exact Option.some_ne_none a
    have hd : l.define name kind address line = l.record .duplicateSymbol line := by
      simp only [define, hof]
      rw [show l.symbols.insert { name, address := ⟨address, ha⟩, kind, line } =
        .error (.duplicate name) from SymbolTable.insert_of_known hne]
    have hclash : ¬ (a.kind = .external ∧ kind = .external) := fun h => hk h.2 a hb h.1
    rw [hd]
    refine ⟨rfl, rfl, fun n => (binding?_or_find (b := { name, kind, address }) hne n).symm, ?_⟩
    simp only [record, hb, Binding.clash, if_neg hclash]
    exact Report.record_eq_extend _ _ _

theorem defineLabel_binds (l : Layout) (label : Option Text) {address : Nat} (line : Nat)
    (ha : address < memorySize) {kind : SymbolKind} (hk : kind ≠ .external) :
    Binds l (l.defineLabel label kind address line)
      (label.map fun n => { name := n, kind, address }) line := by
  cases label with
  | none => exact Binds.none l line
  | some n => exact define_binds l line ha fun h => absurd h hk

theorem declareExternal_binds (l : Layout) (name : Text) (line : Nat) :
    Binds l (l.declareExternal name line) (some { name, kind := .external, address := 0 }) line := by
  have hkind : l.isExternal name = (l.symbols.binding? name).any fun a => a.kind == .external := by
    simp [isExternal, SymbolTable.binding?, Option.any_map, Symbol.binding]
  unfold declareExternal
  split
  · rename_i hext
    rw [hkind] at hext
    cases hb : l.symbols.binding? name with
    | none => simp [hb] at hext
    | some a =>
      have ha : a.kind = .external := by simpa [hb] using hext
      have hne : l.symbols.binding? name ≠ .none := by simp [hb]
      exact ⟨rfl, rfl,
        fun n => (binding?_or_find (b := { name, kind := .external, address := 0 }) hne n).symm,
        by simp [hb, Binding.clash, ha]⟩
  · rename_i hext
    rw [hkind] at hext
    refine define_binds l line (by decide) fun _ a ha he => hext ?_
    simp [ha, he]

/-! ### One statement -/

/-- The second layout is the first with one more statement. -/
structure Places (l l' : Layout) (s : Statement) (line : Nat) : Prop where
  codeSize : l'.codeSize = l.codeSize + s.codeSize
  dataSize : l'.dataSize = l.dataSize + s.dataSize
  symbols : ∀ n, l'.symbols.binding? n =
    (l.symbols.binding? n).or (Binding.find n (s.binding? l.codeEnd l.dataSize).toList)
  report : l'.report = l.report.extend (Diagnostic.all l.report.stage line
    (s.ignoredLabel ++ Binding.clash l.symbols.binding? (s.binding? l.codeEnd l.dataSize)))

theorem addCode_places (l : Layout) (label : Option Text) (i : Instruction) (line : Nat)
    (h : l.codeEnd < memorySize) :
    Places l (l.addCode label i line) (.instruction label i) line := by
  have hk : SymbolKind.code ≠ .external := by decide
  have hb := defineLabel_binds l label line h hk
  refine ⟨?_, hb.dataSize, hb.symbols, hb.report⟩
  simp only [addCode, hb.codeSize, Statement.codeSize]

theorem addData_places (l : Layout) (label : Option Text) (d : Directive) (line : Nat)
    (hd : d.takesMemory = true) (h : l.dataSize < memorySize) :
    Places l (l.addData label (Statement.dataKind d) d line) (.directive label d) line := by
  have hb := defineLabel_binds l label line h (Statement.dataKind_ne_external d)
  refine ⟨hb.codeSize, ?_, ?_, ?_⟩
  · simp only [addData, hb.dataSize, Statement.dataSize]
  · rw [Statement.binding?_of_takesMemory _ _ label hd]
    exact hb.symbols
  · rw [Statement.binding?_of_takesMemory _ _ label hd, Statement.ignoredLabel_of_takesMemory label hd]
    exact hb.report

theorem recordIf_report (l : Layout) (b : Bool) (f : Fault) (line : Nat) :
    (l.recordIf b f line).report =
      l.report.extend (Diagnostic.all l.report.stage line (if b then [f] else [])) :=
  Report.recordIf_eq_extend _ _ _ _

/-- A statement that fits into memory is placed there, and its label is bound
to its first cell. -/
theorem place_places (l : Layout) (s : Statement) (line : Nat) (hs : s.Sound)
    (h : l.codeEnd + s.codeSize + (l.dataSize + s.dataSize) ≤ memorySize) :
    Places l (l.place line s) s line := by
  have hdata : ∀ {d : Directive}, 0 < d.dataSize →
      l.codeEnd + 0 + (l.dataSize + d.dataSize) ≤ memorySize → l.dataSize < memorySize := by
    intro d h₁ h₂
    omega
  cases s with
  | blank => exact ⟨rfl, rfl, (Binds.none l line).symbols, (Binds.none l line).report⟩
  | comment => exact ⟨rfl, rfl, (Binds.none l line).symbols, (Binds.none l line).report⟩
  | instruction label i =>
    have hpos := i.wordCount_pos
    simp only [Statement.codeSize, Statement.dataSize] at h
    exact addCode_places l label i line (by omega)
  | directive label d =>
    cases d with
    | data vs => exact addData_places l label (.data vs) line rfl (hdata (hs rfl) h)
    | string t => exact addData_places l label (.string t) line rfl (hdata (hs rfl) h)
    | matrix dimensions vs =>
      exact addData_places l label (.matrix dimensions vs) line rfl (hdata (hs rfl) h)
    | entry n =>
      refine ⟨rfl, rfl, (Binds.none l line).symbols, ?_⟩
      refine (recordIf_report l _ _ line).trans ?_
      simp [Statement.ignoredLabel, Binding.clash, Statement.binding?, Directive.takesMemory]
    | external n =>
      have hb := declareExternal_binds (l.recordIf label.isSome .externalLabelIgnored line) n line
      refine ⟨hb.codeSize, hb.dataSize, hb.symbols, ?_⟩
      have hr := recordIf_report l label.isSome .externalLabelIgnored line
      rw [Diagnostic.all_append, ← Report.extend_extend]
      refine hb.report.trans ?_
      rw [hr]
      rfl

/-- What the pass knows after one more statement. -/
theorem Describes.place {l l' : Layout} {ss : List Statement} {s : Statement} {line : Nat}
    (h : l.Describes ss) (hp : Places l l' s line) :
    l'.Describes (ss ++ [s]) ∧
      l'.report = l.report.extend (Diagnostic.all .firstPass line (faults ss (.ok s))) := by
  have hknown : l.symbols.binding? = fun n => Binding.find n (bindings ss) := funext h.symbols
  have hcode := h.codeEnd
  have hdata := h.dataSize
  refine ⟨⟨?_, ?_, ?_, fun n => ?_⟩, ?_⟩
  · rw [hp.report, Report.extend_stage, h.stage]
  · simp [hp.codeSize, h.codeSize]
  · simp [hp.dataSize, h.dataSize]
  · rw [hp.symbols, h.symbols, hcode, hdata, bindings_append_singleton, Binding.find_append]
  · rw [hp.report, h.stage, hknown, hcode, hdata, faults]

/-! ### Sizes do not depend on names -/

theorem define_sizes (l : Layout) (name : Text) (kind : SymbolKind) (address line : Nat) :
    (l.define name kind address line).codeSize = l.codeSize ∧
      (l.define name kind address line).dataSize = l.dataSize := by
  unfold define
  split
  · exact ⟨rfl, rfl⟩
  · split <;> exact ⟨rfl, rfl⟩

theorem defineLabel_sizes (l : Layout) (label : Option Text) (kind : SymbolKind)
    (address line : Nat) :
    (l.defineLabel label kind address line).codeSize = l.codeSize ∧
      (l.defineLabel label kind address line).dataSize = l.dataSize := by
  cases label with
  | none => exact ⟨rfl, rfl⟩
  | some n => exact define_sizes l n kind address line

/-- A statement is counted whether or not its label could be defined. -/
theorem place_sizes (l : Layout) (s : Statement) (line : Nat) :
    (l.place line s).codeSize = l.codeSize + s.codeSize ∧
      (l.place line s).dataSize = l.dataSize + s.dataSize := by
  have hdata : ∀ (label : Option Text) (kind : SymbolKind) (d : Directive),
      (l.addData label kind d line).codeSize = l.codeSize ∧
        (l.addData label kind d line).dataSize = l.dataSize + d.dataSize := by
    intro label kind d
    obtain ⟨h₁, h₂⟩ := defineLabel_sizes l label kind l.dataSize line
    exact ⟨h₁, by simp only [addData, h₂]⟩
  cases s with
  | blank => exact ⟨rfl, rfl⟩
  | comment => exact ⟨rfl, rfl⟩
  | instruction label i =>
    obtain ⟨h₁, h₂⟩ := defineLabel_sizes l label .code l.codeEnd line
    exact ⟨by simp only [place, addCode, h₁, Statement.codeSize], h₂⟩
  | directive label d =>
    cases d with
    | data vs => exact hdata label .data (.data vs)
    | string t => exact hdata label .data (.string t)
    | matrix dimensions vs => exact hdata label .matrix (.matrix dimensions vs)
    | entry n => exact ⟨rfl, rfl⟩
    | external n =>
      simp only [place, declareExternal]
      split
      · exact ⟨rfl, rfl⟩
      · exact define_sizes _ n .external 0 line

/-! ### One line -/

theorem severity_of_mem_ignoredLabel {s : Statement} {f : Fault} (hf : f ∈ s.ignoredLabel) :
    f.severity = .note := by
  unfold Statement.ignoredLabel at hf
  split at hf
  · split at hf
    · rw [List.mem_singleton.1 hf]
      rfl
    · cases hf
  · split at hf
    · rw [List.mem_singleton.1 hf]
      rfl
    · cases hf
  · cases hf

theorem severity_of_mem_clash {known : Text → Option Binding} {b : Option Binding} {f : Fault}
    (hf : f ∈ Binding.clash known b) : f.severity = .error := by
  unfold Binding.clash at hf
  split at hf
  · cases hf
  · split at hf
    · cases hf
    · split at hf
      · cases hf
      · rw [List.mem_singleton.1 hf]
        rfl

/-- Nothing the first pass says about a line stops it, as long as memory
suffices. -/
theorem faults_not_fatal (macros : MacroTable) (before : List Statement) (t : Text) :
    ∀ f ∈ faults before (Statement.read macros t), f.isFatal = false := by
  intro f hf
  cases hr : Statement.read macros t with
  | error g =>
    rw [hr, faults, List.mem_singleton] at hf
    rw [hf]
    exact Fault.isFatal_of_error (Statement.onlyErrors_read macros t g hr)
  | ok s =>
    rw [hr, faults, List.mem_append] at hf
    rcases hf with hf | hf
    · exact Fault.isFatal_of_note (severity_of_mem_ignoredLabel hf)
    · exact Fault.isFatal_of_error (severity_of_mem_clash hf)

/-- **One line of the first pass**, if code and data still fit after it. -/
theorem step_describes {macros : MacroTable} {l : Layout} {ss : List Statement}
    (h : l.Describes ss) (line : SourceLine)
    (hfits : Fits (ss ++ (Statement.read macros line.text).toOption.toList)) :
    (step macros l line).Describes (ss ++ (Statement.read macros line.text).toOption.toList) ∧
      (step macros l line).report = l.report.extend
        (Diagnostic.all .firstPass line.origin (faults ss (Statement.read macros line.text))) := by
  unfold step
  cases hr : Statement.read macros line.text with
  | error f =>
    have hreport : (l.record f line.origin).report =
        l.report.extend (Diagnostic.all .firstPass line.origin [f]) := by
      rw [← h.stage]
      rfl
    refine ⟨?_, hreport⟩
    simp only [Except.toOption, Option.toList_none, List.append_nil]
    exact ⟨h.stage, h.codeSize, h.dataSize, h.symbols⟩
  | ok s =>
    rw [hr] at hfits
    simp only [Except.toOption, Option.toList_some] at hfits ⊢
    have hbound : l.codeEnd + s.codeSize + (l.dataSize + s.dataSize) ≤ memorySize := by
      rw [h.codeEnd, h.dataSize]
      simpa [Fits, Nat.add_assoc] using hfits
    have hp := place_places l s line.origin (Statement.sound_of_read hr) hbound
    have hfit : (l.place line.origin s).fits = true := by
      rw [fits, Layout.codeEnd, hp.codeSize, hp.dataSize]
      rw [Layout.codeEnd] at hbound
      exact decide_eq_true (by omega)
    simp only [hfit, Bool.not_true]
    exact h.place hp

theorem Describes.not_fits_place {l : Layout} {ss : List Statement} {s : Statement}
    (h : l.Describes ss) (hover : ¬ Fits (ss ++ [s])) (line : Nat) :
    (l.place line s).fits = false := by
  obtain ⟨h₁, h₂⟩ := place_sizes l s line
  rw [fits, Layout.codeEnd, h₁, h₂, h.codeSize, h.dataSize]
  refine decide_eq_false fun hle => hover ?_
  simpa [Fits] using hle

/-- A line after which code and data do not fit stops the pass. -/
theorem step_overflow {macros : MacroTable} {l : Layout} {ss : List Statement} {line : SourceLine}
    {s : Statement} (h : l.Describes ss) (hr : Statement.read macros line.text = .ok s)
    (hover : ¬ Fits (ss ++ [s])) : (step macros l line).report.isFatal = true := by
  simp only [step, hr, h.not_fits_place hover]
  exact Report.isFatal_record rfl _

/-! ### All lines -/

theorem run_of_fatal (macros : MacroTable) {l : Layout} (h : l.report.isFatal = true)
    (lines : List SourceLine) : run macros l lines = l := by
  cases lines with
  | nil => rfl
  | cons line lines => exact if_pos h

theorem problems_not_fatal (macros : MacroTable) : ∀ {r : Report}, r.isFatal = false →
    ∀ (before : List Statement) (lines : List SourceLine),
      (r.extend (problems macros before lines)).isFatal = false
  | r, hr, before, [] => by simpa [problems] using hr
  | r, hr, before, line :: lines => by
    rw [problems, ← Report.extend_extend]
    exact problems_not_fatal macros
      (Report.isFatal_extend_all hr (faults_not_fatal macros before line.text)) _ lines

/-- **The first pass over a program that fits.** The invariant is `Describes`
for the statements read so far. -/
theorem run_describes (macros : MacroTable) : ∀ (lines : List SourceLine) (l : Layout)
    (ss : List Statement), l.Describes ss → l.report.isFatal = false →
      Fits (ss ++ statements macros lines) →
      (run macros l lines).Describes (ss ++ statements macros lines) ∧
        (run macros l lines).report = l.report.extend (problems macros ss lines)
  | [], l, ss, h, _, _ => by
    simpa [run, problems, statements] using h
  | line :: lines, l, ss, h, hl, hfits => by
    rw [statements_cons, ← List.append_assoc] at hfits ⊢
    obtain ⟨hs, hreport⟩ := step_describes h line hfits.of_append
    have hs' : (step macros l line).report.isFatal = false := by
      rw [hreport]
      exact Report.isFatal_extend_all hl (faults_not_fatal macros ss line.text)
    obtain ⟨ih, ihreport⟩ := run_describes macros lines _ _ hs hs' hfits
    have hrun : run macros l (line :: lines) = run macros (step macros l line) lines := by
      simp [run, hl]
    rw [hrun]
    refine ⟨ih, ?_⟩
    rw [ihreport, hreport, Report.extend_extend]
    rfl

/-- The first pass over a program that does not fit is stopped. -/
theorem run_overflow (macros : MacroTable) : ∀ (lines : List SourceLine) (l : Layout)
    (ss : List Statement), l.Describes ss → Fits ss → ¬ Fits (ss ++ statements macros lines) →
      (run macros l lines).report.isFatal = true
  | [], l, ss, _, hss, hover => by
    rw [show ss ++ statements macros [] = ss from List.append_nil ss] at hover
    exact absurd hss hover
  | line :: lines, l, ss, h, hss, hover => by
    by_cases hl : l.report.isFatal = true
    · rw [run_of_fatal macros hl]
      exact hl
    · have hrun : run macros l (line :: lines) = run macros (step macros l line) lines := by
        simp [run, hl]
      rw [hrun]
      rw [statements_cons, ← List.append_assoc] at hover
      by_cases hfits : Fits (ss ++ (Statement.read macros line.text).toOption.toList)
      · exact run_overflow macros lines _ _ (step_describes h line hfits).1 hfits hover
      · cases hr : Statement.read macros line.text with
        | error f =>
          rw [hr] at hfits
          exact absurd (by simpa [Except.toOption] using hss) hfits
        | ok s =>
          rw [hr] at hfits
          have hstop := step_overflow h hr hfits
          rw [run_of_fatal macros hstop]
          exact hstop

/-! ### What is reported in any case

Also a pass that is stopped reports on the line it is at only. -/

/-- The faults the first pass can find. -/
def Expected (f : Fault) : Prop := f.isFatal = false ∨ f = .memoryOverflow

theorem define_grows (l : Layout) (name : Text) (kind : SymbolKind) (address line : Nat) :
    Report.Grows Expected line l.report (l.define name kind address line).report := by
  unfold define
  split
  · exact Report.grows_record (Or.inr rfl) _ _
  · split
    · exact Report.Grows.refl _ _ _
    · exact Report.grows_record (Or.inl rfl) _ _

theorem defineLabel_grows (l : Layout) (label : Option Text) (kind : SymbolKind)
    (address line : Nat) :
    Report.Grows Expected line l.report (l.defineLabel label kind address line).report := by
  cases label with
  | none => exact Report.Grows.refl _ _ _
  | some n => exact define_grows l n kind address line

theorem place_grows (l : Layout) (s : Statement) (line : Nat) :
    Report.Grows Expected line l.report (l.place line s).report := by
  cases s with
  | blank => exact Report.Grows.refl _ _ _
  | comment => exact Report.Grows.refl _ _ _
  | instruction label i => exact defineLabel_grows l label .code l.codeEnd line
  | directive label d =>
    cases d with
    | data vs => exact defineLabel_grows l label .data l.dataSize line
    | string t => exact defineLabel_grows l label .data l.dataSize line
    | matrix dimensions vs => exact defineLabel_grows l label .matrix l.dataSize line
    | entry n => exact Report.grows_recordIf (Or.inl rfl) _ _ _
    | external n =>
      refine (Report.grows_recordIf (f := .externalLabelIgnored) (Or.inl rfl) l.report
        label.isSome line).trans ?_
      simp only [place, declareExternal]
      split
      · exact Report.Grows.refl _ _ _
      · exact define_grows _ n .external 0 line

theorem step_grows (macros : MacroTable) (l : Layout) (line : SourceLine) :
    Report.Grows Expected line.origin l.report (step macros l line).report := by
  unfold step
  split
  · rename_i f hf
    have herror := Statement.onlyErrors_read macros line.text f hf
    exact Report.grows_record (Or.inl (Fault.isFatal_of_error herror)) _ _
  · rename_i s _
    exact (place_grows l s line.origin).trans (Report.grows_recordIf (Or.inr rfl) _ _ _)

theorem mem_diagnostics_run (macros : MacroTable) {d : Diagnostic} :
    ∀ (lines : List SourceLine) (l : Layout), d ∈ (run macros l lines).report.diagnostics →
      d ∈ l.report.diagnostics ∨ Expected d.fault ∧ ∃ line ∈ lines, d.line = line.origin
  | [], _, hd => Or.inl hd
  | line :: lines, l, hd => by
    by_cases hl : l.report.isFatal = true
    · rw [run_of_fatal macros hl] at hd
      exact Or.inl hd
    · have hrun : run macros l (line :: lines) = run macros (step macros l line) lines := by
        simp [run, hl]
      rw [hrun] at hd
      rcases mem_diagnostics_run macros lines _ hd with hd | ⟨hf, k, hk, horigin⟩
      · rcases (step_grows macros l line).mem_diagnostics hd with hd | ⟨hf, hline⟩
        · exact Or.inl hd
        · exact Or.inr ⟨hf, line, List.mem_cons_self, hline⟩
      · exact Or.inr ⟨hf, k, List.mem_cons_of_mem _ hk, horigin⟩

/-! ### The finished layout -/

/-- The layout of a program, with the data area behind the code. -/
structure Finished (l : Layout) (ss : List Statement) : Prop where
  codeSize : l.codeSize = Outline.codeSize ss
  dataSize : l.dataSize = Outline.dataSize ss
  symbols : ∀ n, l.symbols.binding? n =
    (Binding.find n (bindings ss)).map (Binding.moved (codeBase + Outline.codeSize ss))

theorem describes_start (report : Report) :
    Describes { symbols := .empty, report := report.enter .firstPass } [] :=
  ⟨rfl, rfl, rfl, fun _ => rfl⟩

/-- The data area can always be moved: its symbols lie below its end, and its
end lies in memory. -/
theorem close_finished {l : Layout} {ss : List Statement} (h : l.Describes ss)
    (hl : l.report.isFatal = false) (hss : ∀ s ∈ ss, s.Sound) (hfits : Fits ss) :
    l.close.Finished ss ∧ l.close.report = l.report := by
  have hbound : ∀ n b, l.symbols.binding? n = some b → b.kind.isData = true →
      b.address + l.codeEnd < memorySize := by
    intro n b hb hk
    rw [h.symbols] at hb
    have hlt := bindings_data_lt hss (Binding.find_some hb).1 hk
    rw [h.codeEnd]
    rw [Fits] at hfits
    omega
  obtain ⟨h₁, h₂⟩ := SymbolTable.relocate_of_fits hbound
  have hclose : l.close = { l with symbols := (l.symbols.relocate l.codeEnd).1 } := by
    unfold close
    rw [if_neg (by simp [hl])]
    split
    · rename_i heq
      rw [heq]
    · rename_i heq
      rw [heq] at h₁
      cases h₁
  rw [hclose]
  refine ⟨⟨h.codeSize, h.dataSize, fun n => ?_⟩, rfl⟩
  rw [h₂, h.symbols, h.codeEnd]

theorem close_of_fatal {l : Layout} (hl : l.report.isFatal = true) : l.close = l := if_pos hl

/-- **The layout of a program that fits.** -/
theorem ofLines_finished {macros : MacroTable} {report : Report} {lines : List SourceLine}
    (hr : report.isFatal = false) (hfits : Fits (statements macros lines)) :
    (ofLines macros report lines).Finished (statements macros lines) ∧
      (ofLines macros report lines).report =
        (report.enter .firstPass).extend (problems macros [] lines) := by
  obtain ⟨h, hreport⟩ := run_describes macros lines _ [] (describes_start report) hr hfits
  have hrun : (run macros { symbols := .empty, report := report.enter .firstPass } lines).report.isFatal =
      false := by
    rw [hreport]
    exact problems_not_fatal macros hr [] lines
  obtain ⟨hc, hcreport⟩ := close_finished h hrun (sound_of_mem_statements macros lines) hfits
  exact ⟨hc, hcreport.trans hreport⟩

/-- Moving the data area adds nothing to the report. -/
theorem ofLines_report {macros : MacroTable} {report : Report} (hr : report.isFatal = false)
    (lines : List SourceLine) : (ofLines macros report lines).report =
      (run macros { symbols := .empty, report := report.enter .firstPass } lines).report := by
  by_cases hfits : Fits (statements macros lines)
  · rw [(ofLines_finished hr hfits).2]
    exact (run_describes macros lines _ [] (describes_start report) hr hfits).2.symm
  · have hstop := run_overflow macros lines _ [] (describes_start report) (by decide) hfits
    rw [ofLines, close_of_fatal hstop]

/-- **The first pass is stopped exactly if code and data do not fit into
memory**, unless the work was stopped before. -/
theorem isFatal_ofLines_iff (macros : MacroTable) (report : Report) (lines : List SourceLine) :
    (ofLines macros report lines).report.isFatal = false ↔
      report.isFatal = false ∧ Fits (statements macros lines) := by
  constructor
  · intro h
    by_cases hr : report.isFatal = true
    · have hrun := run_of_fatal macros
        (l := { symbols := .empty, report := report.enter .firstPass }) hr lines
      rw [ofLines, hrun, close_of_fatal hr] at h
      exact absurd h (by simp [hr])
    · refine ⟨by simpa using hr, ?_⟩
      by_contra hover
      have hstop := run_overflow macros lines _ [] (describes_start report) (by decide) hover
      rw [ofLines, close_of_fatal hstop] at h
      simp [h] at hstop
  · rintro ⟨hr, hfits⟩
    rw [(ofLines_finished hr hfits).2]
    exact problems_not_fatal macros hr [] lines

end Layout
end TenBit
