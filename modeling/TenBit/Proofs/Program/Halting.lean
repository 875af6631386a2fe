/-
# A fatal problem ends the work

Each stage looks at the report before it takes the next line, so once something
fatal is in it no further line is taken. A line of the expansion has one fatal
fault at most. A line of the first pass can have two, and in one case only: the
code before it fills memory to the last cell and the line is an instruction with a
label. Then there is no cell for the label and none for the instruction, and
memory overflows twice. Everywhere else a fatal problem is the only one of its
sort and the last one in the report.

Key definitions: `Diagnostic.HaltsAtOnce`, `Report.Advances`,
`Outline.LabelBehindMemory`, `Program.Overruns`.
Key theorems: `Expander.step_advances`, `Expansion.ofInput_halts`,
`Layout.step_overflow_cases`, `Program.haltsAtOnce_iff`.
-/
import TenBit.Proofs.Program.Agreement

namespace TenBit

namespace Diagnostic

/-- There is at most one fatal problem, and it is the last. -/
structure HaltsAtOnce (ds : List Diagnostic) : Prop where
  once : (ds.countP fun d => d.fault.isFatal) ≤ 1
  last : ∀ d ∈ ds, d.fault.isFatal = true → ds.getLast? = some d

/-- No problem in front of the last is fatal. -/
def Halts (ds : List Diagnostic) : Prop := ∀ d ∈ ds.dropLast, d.fault.isFatal = false

theorem haltsAtOnce_iff_halts {ds : List Diagnostic} : HaltsAtOnce ds ↔ Halts ds := by
  rcases List.eq_nil_or_concat' ds with rfl | ⟨es, e, rfl⟩
  · exact ⟨fun _ d hd => absurd hd List.not_mem_nil, fun _ => ⟨by simp, by simp⟩⟩
  · have hcount : ((es ++ [e]).countP fun d => d.fault.isFatal) =
        (es.countP fun d => d.fault.isFatal) + if e.fault.isFatal then 1 else 0 := by
      rw [List.countP_append, List.countP_singleton]
    rw [Halts, List.dropLast_concat]
    constructor
    · intro h d hd
      by_contra hfatal
      have hfatal : d.fault.isFatal = true := by simpa using hfatal
      -- such a problem is also the last one, so it is counted twice
      have hlast := h.last d (List.mem_append_left _ hd) hfatal
      rw [List.getLast?_concat, Option.some.injEq] at hlast
      have hpos : 0 < es.countP fun d => d.fault.isFatal := List.countP_pos_iff.2 ⟨d, hd, hfatal⟩
      have honce := h.once
      rw [hcount, hlast, if_pos hfatal] at honce
      omega
    · intro h
      have hzero : (es.countP fun d => d.fault.isFatal) = 0 :=
        List.countP_eq_zero.2 fun d hd => by simp [h d hd]
      refine ⟨?_, fun d hd hfatal => ?_⟩
      · rw [hcount, hzero]
        split <;> omega
      · rcases List.mem_append.1 hd with hd | hd
        · rw [h d hd] at hfatal
          cases hfatal
        · rw [List.mem_singleton.1 hd, List.getLast?_concat]

theorem halts_of_not_fatal {ds : List Diagnostic} (h : ∀ d ∈ ds, d.fault.isFatal = false) :
    Halts ds :=
  fun d hd => h d (List.dropLast_subset ds hd)

theorem Halts.append {ds es : List Diagnostic} (hds : ∀ d ∈ ds, d.fault.isFatal = false)
    (hes : Halts es) : Halts (ds ++ es) := by
  by_cases hnil : es = []
  · rw [hnil, List.append_nil]
    exact halts_of_not_fatal hds
  · rw [Halts, List.dropLast_append_of_ne_nil hnil]
    exact List.forall_mem_append.2 ⟨hds, hes⟩

end Diagnostic

open Diagnostic (Halts HaltsAtOnce)

/-- The fault does not stop the work. -/
def Fault.Mild (f : Fault) : Prop := f.isFatal = false

namespace Report

/-- The second report is the first with more problems, of which only the last may
be fatal. -/
def Advances (r r' : Report) : Prop := ∃ ds, Halts ds ∧ r' = r.extend ds

theorem Advances.refl (r : Report) : Advances r r := ⟨[], by simp [Halts], by simp⟩

theorem advances_record (r : Report) (f : Fault) (line : Nat) : Advances r (r.record f line) :=
  ⟨[⟨f, line, r.stage⟩], by simp [Halts], rfl⟩

theorem advances_recordIf (r : Report) (b : Bool) (f : Fault) (line : Nat) :
    Advances r (r.recordIf b f line) := by
  cases b with
  | false => exact Advances.refl r
  | true => exact advances_record r f line

/-- What is mild may come first. -/
theorem Grows.advances {r r' r'' : Report} {line : Nat} (h : Grows Fault.Mild line r r')
    (h' : Advances r' r'') : Advances r r'' := by
  obtain ⟨fs, hfs, rfl⟩ := h
  obtain ⟨ds, hds, rfl⟩ := h'
  refine ⟨_, Halts.append ?_ hds, extend_extend r _ ds⟩
  intro d hd
  obtain ⟨f, hf, rfl⟩ := List.mem_map.1 hd
  exact hfs f hf

theorem Advances.halts {r r' : Report} (h : Advances r r') (hr : r.isFatal = false) :
    Halts r'.diagnostics := by
  obtain ⟨ds, hds, rfl⟩ := h
  exact Halts.append (isFatal_eq_false_iff.1 hr) hds

end Report

open Report (Advances Grows)

/-! ### The expansion -/

namespace Expander

theorem openDefinition_advances (s : Expander) (line : Nat) (t : Text) :
    Advances s.report (s.openDefinition line t).report := by
  unfold openDefinition
  simp only
  split
  · exact Report.advances_record _ _ line
  · -- text behind the name does not stop the work, so there may be more
    refine (Report.grows_recordIf (P := Fault.Mild) (f := .textAfterMacroName) rfl s.report
      (!Text.isBlankText ((Text.nextWord? t).getD ([], [])).2) line).advances ?_
    split
    · exact Advances.refl _
    · exact Report.advances_record _ _ line

theorem keep_advances (s : Expander) (d : Definition) (line : Nat) (t : Text) :
    Advances s.report (s.keep d line t).report := by
  unfold keep
  split
  · exact Advances.refl _
  · split
    · exact Advances.refl _
    · exact Report.advances_record _ _ line

theorem inside_advances (s : Expander) (d : Definition) (line : Nat) (t : Text) :
    Advances s.report (s.inside d line t).report := by
  unfold inside
  split
  · split
    · exact Report.advances_recordIf _ _ _ line
    · exact keep_advances s d line t
  · exact keep_advances s d line t

theorem callNamed_advances (s : Expander) (line : Nat) (t : Text) (label : Option Text)
    (name rest : Text) : Advances s.report (s.callNamed line t label name rest).1.report := by
  unfold callNamed
  split
  · exact Advances.refl _
  · split
    · exact Report.advances_record _ _ line
    · unfold expand
      split
      · exact Report.advances_record _ _ line
      · exact Advances.refl _
      · exact Report.advances_recordIf _ _ _ line

theorem outside_advances (s : Expander) (line : Nat) (t : Text) :
    Advances s.report (s.outside line t).1.report := by
  unfold outside
  split
  · exact Advances.refl _
  · split
    · exact Advances.refl _
    · split
      · exact openDefinition_advances s line _
      · split
        · exact Report.advances_record _ _ line
        · unfold call
          split
          · split
            · exact callNamed_advances s line t _ _ _
            · exact Advances.refl _
          · exact callNamed_advances s line t _ _ _

/-- **One line** has at most one fatal fault, behind all others. -/
theorem step_advances (s : Expander) (line : Nat) (t : Text) :
    Advances s.report (s.step line t).1.report := by
  unfold step
  split
  · exact outside_advances s line t
  · exact inside_advances s _ line t

/-- **All lines.** A line is taken only if nothing before it was fatal. -/
theorem run_halts : ∀ (ls : List (Nat × Source.Content)) {s : Expander},
    Halts s.report.diagnostics → Halts (run s ls).1.report.diagnostics
  | [], _, h => h
  | (n, c) :: ls, s, h => by
    unfold run
    by_cases hfatal : s.report.isFatal = true
    · rw [if_pos hfatal]
      exact h
    · rw [if_neg hfatal]
      have hcalm : s.report.isFatal = false := by simpa using hfatal
      cases c with
      | tooLong =>
        exact run_halts ls (s := s.record .lineTooLong n)
          ((Report.advances_record s.report .lineTooLong n).halts hcalm)
      | unreadable reason => exact (Report.advances_record s.report .sourceUnreadable n).halts hcalm
      | text t => exact run_halts ls ((step_advances s n t).halts hcalm)

theorem finish_halts {s : Expander} (h : Halts s.report.diagnostics) :
    Halts s.finish.report.diagnostics := by
  unfold finish
  split
  · exact h
  · cases hfatal : s.report.isFatal with
    | true => exact h
    | false => exact (Report.advances_record s.report .macroUnterminated _).halts hfatal

end Expander

theorem Expansion.ofInput_halts (file : Text) (input : Input) :
    Halts (ofInput .empty (.new file) input).report.diagnostics := by
  refine Expander.finish_halts (Expander.run_halts _ ?_)
  simp [Halts, Report.new]

/-! ### One line of the first pass -/

namespace Layout

open Outline

/-- The address a statement gives to its label. -/
def labelAddress? (l : Layout) : Statement → Option Nat
  | .instruction (some _) _ => some l.codeEnd
  | .directive (some _) d => if d.takesMemory then some l.dataSize else none
  | _ => none

theorem define_mild (l : Layout) (name : Text) (kind : SymbolKind) {address : Nat} (line : Nat)
    (h : address < memorySize) :
    Grows Fault.Mild line l.report (l.define name kind address line).report := by
  have hof : Address.ofNat? address = some ⟨address, h⟩ := dif_pos h
  simp only [define, hof]
  split
  · exact Grows.refl _ _ _
  · exact Report.grows_record (P := Fault.Mild) (f := .duplicateSymbol) rfl _ line

theorem define_beyond (l : Layout) (name : Text) (kind : SymbolKind) {address : Nat} (line : Nat)
    (h : memorySize ≤ address) :
    l.define name kind address line = l.record .memoryOverflow line := by
  have hof : Address.ofNat? address = none := dif_neg (Nat.not_lt.2 h)
  simp only [define, hof]

/-- A statement whose label lies in memory, or that has none. -/
theorem place_mild (l : Layout) (s : Statement) (line : Nat)
    (h : ∀ a, l.labelAddress? s = some a → a < memorySize) :
    Grows Fault.Mild line l.report (l.place line s).report := by
  have hlabel : ∀ (label : Option Text) (kind : SymbolKind) (a : Nat),
      (label.isSome = true → a < memorySize) →
        Grows Fault.Mild line l.report (l.defineLabel label kind a line).report := by
    intro label kind a ha
    cases label with
    | none => exact Grows.refl _ _ _
    | some n => exact define_mild l n kind line (ha rfl)
  cases s with
  | blank => exact Grows.refl _ _ _
  | comment => exact Grows.refl _ _ _
  | instruction label i =>
    refine hlabel label .code l.codeEnd fun hsome => h _ ?_
    obtain ⟨n, rfl⟩ := Option.isSome_iff_exists.1 hsome
    rfl
  | directive label d =>
    have hdata : d.takesMemory = true → label.isSome = true → l.dataSize < memorySize := by
      intro hd hsome
      obtain ⟨n, rfl⟩ := Option.isSome_iff_exists.1 hsome
      exact h _ (by simp [labelAddress?, hd])
    cases d with
    | data vs => exact hlabel label .data l.dataSize (hdata rfl)
    | string t => exact hlabel label .data l.dataSize (hdata rfl)
    | matrix dimensions vs => exact hlabel label .matrix l.dataSize (hdata rfl)
    | entry n =>
      exact Report.grows_recordIf (P := Fault.Mild) (f := .entryLabelIgnored) rfl _ _ line
    | external n =>
      refine (Report.grows_recordIf (P := Fault.Mild) (f := .externalLabelIgnored) rfl l.report
        label.isSome line).trans ?_
      simp only [place, declareExternal]
      split
      · exact Grows.refl _ _ _
      · exact define_mild _ n .external line (by decide)

/-- A statement whose label lies behind memory. -/
theorem place_beyond (l : Layout) (s : Statement) (line : Nat) {a : Nat}
    (hs : l.labelAddress? s = some a) (ha : memorySize ≤ a) :
    (l.place line s).report = l.report.record .memoryOverflow line := by
  unfold labelAddress? at hs
  split at hs
  · rename_i n i
    cases hs
    simp only [place, addCode, defineLabel, define_beyond l n .code line ha]
    rfl
  · rename_i n d
    split at hs
    · rename_i hd
      cases hs
      cases d with
      | data vs =>
        simp only [place, addData, defineLabel, define_beyond l n .data line ha]
        rfl
      | string t =>
        simp only [place, addData, defineLabel, define_beyond l n .data line ha]
        rfl
      | matrix dimensions vs =>
        simp only [place, addData, defineLabel, define_beyond l n .matrix line ha]
        rfl
      | entry m => cases hd
      | external m => cases hd
    · cases hs
  · cases hs

/-- If all before fits, only the label of an instruction can lie behind memory, and
only if the code before fills it. -/
theorem full_of_labelAddress? {l : Layout} {ss : List Statement} (h : l.Describes ss)
    (hss : Fits ss) {s : Statement} {a : Nat} (hs : l.labelAddress? s = some a)
    (ha : memorySize ≤ a) : (∃ n i, s = .instruction (some n) i) ∧
      codeBase + Outline.codeSize ss = memorySize ∧ Outline.dataSize ss = 0 := by
  have hcode := h.codeEnd
  have hdata := h.dataSize
  rw [Fits] at hss
  unfold labelAddress? at hs
  split at hs
  · rename_i n i
    cases hs
    refine ⟨⟨n, i, rfl⟩, ?_, ?_⟩ <;> omega
  · split at hs
    · cases hs
      have hbase : 0 < codeBase := by decide
      omega
    · cases hs
  · cases hs

/-- **The line at which memory overflows.** Its label may already lie behind
memory; otherwise the overflow is the last of its problems. -/
theorem step_overflow_cases {macros : MacroTable} {l : Layout} {ss : List Statement}
    {line : SourceLine} {s : Statement} (h : l.Describes ss)
    (hr : Statement.read macros line.text = .ok s) (hover : ¬ Fits (ss ++ [s])) :
    (∃ a, l.labelAddress? s = some a ∧ memorySize ≤ a ∧
      (step macros l line).report = l.report.extend [⟨.memoryOverflow, line.origin, .firstPass⟩,
        ⟨.memoryOverflow, line.origin, .firstPass⟩]) ∨
    ((∀ a, l.labelAddress? s = some a → a < memorySize) ∧
      Advances l.report (step macros l line).report) := by
  have hstep : (step macros l line).report =
      (l.place line.origin s).report.record .memoryOverflow line.origin := by
    simp only [step, hr, h.not_fits_place hover]
    rfl
  rw [hstep]
  by_cases hlabel : ∀ a, l.labelAddress? s = some a → a < memorySize
  · exact Or.inr ⟨hlabel, (place_mild l s line.origin hlabel).advances
      (Report.advances_record _ _ _)⟩
  · obtain ⟨a, hs, ha⟩ : ∃ a, l.labelAddress? s = some a ∧ memorySize ≤ a := by
      simpa using hlabel
    refine Or.inl ⟨a, hs, ha, ?_⟩
    rw [place_beyond l s line.origin hs ha, ← h.stage]
    simp [Report.record, Report.extend]

/-! ### The first pass up to the line at which memory overflows -/

theorem run_append (macros : MacroTable) : ∀ (as bs : List SourceLine) (l : Layout),
    run macros l (as ++ bs) = run macros (run macros l as) bs
  | [], _, _ => rfl
  | a :: as, bs, l => by
    by_cases hfatal : l.report.isFatal = true
    · rw [run_of_fatal macros hfatal, run_of_fatal macros hfatal, run_of_fatal macros hfatal]
    · simp [run, hfatal, run_append macros as bs]

/-- The pass comes to the line behind lines that fit, and goes no further if that
line does not. -/
theorem report_of_overflow {macros : MacroTable} {report : Report} {before : List SourceLine}
    {line : SourceLine} {s : Statement} (hr : report.isFatal = false)
    (hread : Statement.read macros line.text = .ok s) (hfits : Fits (statements macros before))
    (hover : ¬ Fits (statements macros before ++ [s])) (after : List SourceLine) :
    ∃ l : Layout, l.Describes (statements macros before) ∧ l.report.isFatal = false ∧
      (ofLines macros report (before ++ line :: after)).report = (step macros l line).report := by
  obtain ⟨hl, hreport⟩ := run_describes macros before _ [] (describes_start report) hr hfits
  rw [List.nil_append] at hl
  set l := run macros { symbols := .empty, report := report.enter .firstPass } before with hldef
  have hcalm : l.report.isFatal = false := by
    rw [hreport]
    exact problems_not_fatal macros hr [] before
  have hstop := step_overflow hl hread hover
  have hrun : run macros l (line :: after) = step macros l line := by
    rw [run, hcalm]
    exact run_of_fatal macros hstop after
  refine ⟨l, hl, hcalm, ?_⟩
  rw [ofLines, run_append, ← hldef, hrun, close_of_fatal hstop]

end Layout

/-! ### Programs -/

namespace Outline

/-- The code of some lines fills memory, and an instruction with a label follows. -/
def LabelBehindMemory (macros : MacroTable) (lines : List SourceLine) : Prop :=
  ∃ before line after n i, lines = before ++ line :: after ∧
    Statement.read macros line.text = .ok (.instruction (some n) i) ∧
    codeBase + codeSize (statements macros before) = memorySize ∧
    dataSize (statements macros before) = 0

/-- There is a line at which memory overflows, if there is not enough of it. -/
theorem exists_overflow (macros : MacroTable) : ∀ (lines : List SourceLine) (ss : List Statement),
    Fits ss → ¬ Fits (ss ++ statements macros lines) → ∃ before line after s,
      lines = before ++ line :: after ∧ Statement.read macros line.text = .ok s ∧
      Fits (ss ++ statements macros before) ∧ ¬ Fits (ss ++ statements macros before ++ [s])
  | [], ss, hss, hover => absurd (by simpa [statements] using hss) hover
  | l :: lines, ss, hss, hover => by
    rw [statements_cons, ← List.append_assoc] at hover
    by_cases hfits : Fits (ss ++ (Statement.read macros l.text).toOption.toList)
    · obtain ⟨before, line, after, s, rfl, hread, hbefore, hline⟩ :=
        exists_overflow macros lines _ hfits hover
      refine ⟨l :: before, line, after, s, rfl, hread, ?_, ?_⟩
      · rw [statements_cons, ← List.append_assoc]
        exact hbefore
      · rw [statements_cons, ← List.append_assoc]
        exact hline
    · cases hread : Statement.read macros l.text with
      | error f =>
        rw [hread] at hfits
        exact absurd (by simpa [Except.toOption] using hss) hfits
      | ok s =>
        rw [hread] at hfits
        refine ⟨[], l, lines, s, rfl, hread, by simpa [statements] using hss, ?_⟩
        simpa [statements, Except.toOption] using hfits

end Outline

namespace Program

open Outline

theorem reportOf_of_overflow {x : Expansion} (hover : ¬ Fits (statements x.macros x.lines)) :
    reportOf (ofExpansion x) = (Layout.ofLines x.macros x.report x.lines).report := by
  have hfatal : (Layout.ofLines x.macros x.report x.lines).report.isFatal = true := by
    have hnot := mt (Layout.isFatal_ofLines_iff x.macros x.report x.lines).1 fun h => hover h.2
    simpa using hnot
  simp [ofExpansion, hfatal, reportOf]

/-- Nothing is fatal about a program that fits. -/
theorem not_fatal_of_fits {x : Expansion} (hx : x.report.isFatal = false)
    (hfits : Fits (statements x.macros x.lines)) :
    (reportOf (ofExpansion x)).isFatal = false := by
  have hl := (Layout.isFatal_ofLines_iff x.macros x.report x.lines).2 ⟨hx, hfits⟩
  obtain ⟨-, -, hreport⟩ := ofLayout_ofLines hl
  have he : (Encoder.ofLayout x.macros (Layout.ofLines x.macros x.report x.lines)
      x.lines).report.isFatal = false := by
    rw [hreport]
    exact Encoder.problems_not_fatal x.macros _ hl x.lines
  simp only [ofExpansion, hl, Bool.false_eq_true, if_false]
  split <;> exact he

/-- The passes over a program whose labels have a place each, or that fits. -/
theorem halts_ofExpansion {x : Expansion} (hx : x.report.isFatal = false)
    (h : ¬ LabelBehindMemory x.macros x.lines) : Halts (reportOf (ofExpansion x)).diagnostics := by
  by_cases hfits : Fits (statements x.macros x.lines)
  · exact Diagnostic.halts_of_not_fatal
      (Report.isFatal_eq_false_iff.1 (not_fatal_of_fits hx hfits))
  · rw [reportOf_of_overflow hfits]
    obtain ⟨before, line, after, s, hlines, hread, hbefore, hover⟩ :=
      exists_overflow x.macros x.lines [] (by decide) hfits
    rw [List.nil_append] at hbefore hover
    obtain ⟨l, hl, hcalm, hreport⟩ := Layout.report_of_overflow hx hread hbefore hover after
    rw [hlines, hreport]
    rcases Layout.step_overflow_cases hl hread hover with ⟨a, hs, ha, -⟩ | ⟨-, hadvances⟩
    · obtain ⟨⟨n, i, rfl⟩, hcode, hdata⟩ := Layout.full_of_labelAddress? hl hbefore hs ha
      exact absurd ⟨before, line, after, n, i, hlines, hread, hcode, hdata⟩ h
    · exact hadvances.halts hcalm

/-- The first pass over a program that has a label behind memory. -/
theorem overflows_twice {x : Expansion} (hx : x.report.isFatal = false)
    (h : LabelBehindMemory x.macros x.lines) : ∃ ds line, (∀ d ∈ ds, d.fault.isFatal = false) ∧
      (reportOf (ofExpansion x)).diagnostics = ds ++ [⟨.memoryOverflow, line, .firstPass⟩,
        ⟨.memoryOverflow, line, .firstPass⟩] := by
  obtain ⟨before, line, after, n, i, hlines, hread, hcode, hdata⟩ := h
  have hpos := i.wordCount_pos
  have hbefore : Fits (statements x.macros before) := by
    rw [Fits, hdata]
    omega
  have hover : ¬ Fits (statements x.macros before ++ [.instruction (some n) i]) := by
    simp only [Fits, codeSize_append, dataSize_append, codeSize_cons, codeSize_nil,
      Statement.codeSize]
    omega
  have hall : ¬ Fits (statements x.macros x.lines) := by
    intro hfits
    have hsplit : statements x.macros x.lines =
        (statements x.macros before ++ [.instruction (some n) i]) ++ statements x.macros after := by
      rw [hlines, statements_append, statements_cons, hread, List.append_assoc]
      rfl
    rw [hsplit] at hfits
    exact hover hfits.of_append
  obtain ⟨l, hl, hcalm, hreport⟩ := Layout.report_of_overflow hx hread hbefore hover after
  rw [reportOf_of_overflow hall, hlines, hreport]
  rcases Layout.step_overflow_cases hl hread hover with ⟨a, -, -, hstep⟩ | ⟨hinside, -⟩
  · refine ⟨l.report.diagnostics, line.origin, Report.isFatal_eq_false_iff.1 hcalm, ?_⟩
    rw [hstep, Report.extend_diagnostics]
  · have hlt := hinside l.codeEnd rfl
    rw [hl.codeEnd] at hlt
    omega

/-- The expanded source has a label behind memory. -/
def Overruns (file : Text) (input : Input) : Prop :=
  ∃ x, Expansion.ofFile file input = .ok x ∧ LabelBehindMemory x.macros x.lines

/-- The expansion of a source either ends the work or has nothing fatal. -/
theorem ofFile_cases (file : Text) (input : Input) :
    (∃ r, Expansion.ofFile file input = .error r ∧ Halts r.diagnostics) ∨
      ∃ x, Expansion.ofFile file input = .ok x ∧ x.report.isFatal = false := by
  unfold Expansion.ofFile
  by_cases herror : 0 < (Expansion.ofInput .empty (.new file) input).report.errorCount
  · exact Or.inl ⟨_, if_pos herror, Expansion.ofInput_halts file input⟩
  · have hnotes := Report.errorCount_eq_zero_iff.1 (Nat.eq_zero_of_not_pos herror)
    exact Or.inr ⟨_, if_neg herror, Report.isFatal_eq_false_iff.2 fun d hd =>
      Fault.isFatal_of_note (hnotes d hd)⟩

theorem not_haltsAtOnce_twice (ds : List Diagnostic) {d : Diagnostic}
    (hd : d.fault.isFatal = true) :
    ¬ HaltsAtOnce (ds ++ [d, d]) := by
  intro h
  have honce := h.once
  rw [List.countP_append] at honce
  simp [hd] at honce

theorem overflows_twice_of_overruns {file : Text} {input : Input} (h : Overruns file input) :
    ∃ ds line, (∀ d ∈ ds, d.fault.isFatal = false) ∧
      (reportOf (assemble file input)).diagnostics = ds ++ [⟨.memoryOverflow, line, .firstPass⟩,
        ⟨.memoryOverflow, line, .firstPass⟩] := by
  obtain ⟨x, hx, hlabel⟩ := h
  have hcalm : x.report.isFatal = false := by
    rcases ofFile_cases file input with ⟨r, hr, -⟩ | ⟨y, hy, hcalm⟩
    · rw [hx] at hr
      cases hr
    · rw [hx] at hy
      cases hy
      exact hcalm
  rw [assemble, hx]
  exact overflows_twice hcalm hlabel

theorem halts_assemble {file : Text} {input : Input} (h : ¬ Overruns file input) :
    Halts (reportOf (assemble file input)).diagnostics := by
  unfold assemble
  rcases ofFile_cases file input with ⟨r, hr, hhalts⟩ | ⟨x, hx, hcalm⟩
  · rw [hr]
    exact hhalts
  · rw [hx]
    exact halts_ofExpansion hcalm fun hlabel => h ⟨x, hx, hlabel⟩

/-- **A fatal problem is the only one and the last**, for every source and however
reading it ends, unless an instruction behind full memory has a label. There the
overflow is reported twice, and it is still the last that is reported. -/
theorem haltsAtOnce_iff (file : Text) (input : Input) :
    (HaltsAtOnce (reportOf (assemble file input)).diagnostics ↔ ¬ Overruns file input) ∧
      (Overruns file input → ∃ ds line, (∀ d ∈ ds, d.fault.isFatal = false) ∧
        (reportOf (assemble file input)).diagnostics = ds ++ [⟨.memoryOverflow, line, .firstPass⟩,
          ⟨.memoryOverflow, line, .firstPass⟩]) := by
  refine ⟨⟨fun h hoverruns => ?_, fun h => ?_⟩, overflows_twice_of_overruns⟩
  · obtain ⟨ds, line, -, hds⟩ := overflows_twice_of_overruns hoverruns
    rw [hds] at h
    exact not_haltsAtOnce_twice ds rfl h
  · exact Diagnostic.haltsAtOnce_iff_halts.2 (halts_assemble h)

/-- Instructions of three words each that fill memory from cell 100 on. -/
def fillingLines : List SourceLine :=
  (List.range 52).map fun k => ⟨k + 1, "cmp a,a".toList⟩

/-- The lines above, and an instruction with a label. -/
def labelBehindFull : Input where
  bytes := Utf8.encode ((List.replicate 52 "cmp a,a\n".toList).flatten ++ "A: stop\n".toList)

set_option maxRecDepth 10000 in
theorem ofFile_labelBehindFull : Expansion.ofFile [] labelBehindFull =
    .ok ⟨fillingLines ++ [⟨53, "A: stop".toList⟩], .empty, .new []⟩ := rfl

set_option maxRecDepth 10000 in
theorem overruns_labelBehindFull : Overruns [] labelBehindFull :=
  ⟨_, ofFile_labelBehindFull, fillingLines, ⟨53, "A: stop".toList⟩, [], "A".toList,
    { opcode := .stop },
    rfl, rfl, rfl, rfl⟩

theorem haltsAtOnce_iff_labelBehindFull : Overruns [] labelBehindFull ∧
    ∃ ds line, (∀ d ∈ ds, d.fault.isFatal = false) ∧
      (reportOf (assemble [] labelBehindFull)).diagnostics =
        ds ++ [⟨.memoryOverflow, line, .firstPass⟩, ⟨.memoryOverflow, line, .firstPass⟩] :=
  ⟨overruns_labelBehindFull, (haltsAtOnce_iff [] labelBehindFull).2 overruns_labelBehindFull⟩

set_option maxRecDepth 10000 in
/-- The label has no cell and the instruction has none, so there are two fatal
problems on the last line. -/
theorem overflow_reported_twice :
    (reportOf (assemble [] labelBehindFull)).diagnostics =
        [⟨.memoryOverflow, 53, .firstPass⟩, ⟨.memoryOverflow, 53, .firstPass⟩] ∧
      ¬ HaltsAtOnce (reportOf (assemble [] labelBehindFull)).diagnostics := by
  have htwice : (reportOf (assemble [] labelBehindFull)).diagnostics =
      [⟨.memoryOverflow, 53, .firstPass⟩, ⟨.memoryOverflow, 53, .firstPass⟩] := rfl
  refine ⟨htwice, ?_⟩
  rw [htwice]
  exact not_haltsAtOnce_twice [] rfl

end Program
end TenBit
