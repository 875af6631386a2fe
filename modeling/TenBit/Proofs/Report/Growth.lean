/-
# Reports only grow

Every step of the assembler leaves the report as it was or puts problems behind
those it has. So a report is described by what was added to it, and whether it
is fatal or has errors is a matter of the parts.

Key definitions: `Report.extend`, `Diagnostic.all`, `Report.Grows`.
Key theorems: `Report.Grows.trans`, `Report.isFatal_extend`, `Report.isFatal_eq_false_iff`,
`Report.errorCount_eq_zero_iff`.
-/
import TenBit.Report.Basic

namespace TenBit

/-- The problems of one line in one stage. -/
def Diagnostic.all (stage : Stage) (line : Nat) (faults : List Fault) : List Diagnostic :=
  faults.map fun f => ⟨f, line, stage⟩

@[simp] theorem Diagnostic.all_nil (stage : Stage) (line : Nat) : all stage line [] = [] := rfl

theorem Diagnostic.all_append (stage : Stage) (line : Nat) (fs gs : List Fault) :
    all stage line (fs ++ gs) = all stage line fs ++ all stage line gs :=
  List.map_append

theorem Fault.isFatal_of_error {f : Fault} (h : f.severity = .error) : f.isFatal = false := by
  simp [isFatal, h]

theorem Fault.isFatal_of_note {f : Fault} (h : f.severity = .note) : f.isFatal = false := by
  simp [isFatal, h]

theorem Fault.ne_of_isFatal {f g : Fault} (hf : f.isFatal = false) (hg : g.isFatal = true) :
    f ≠ g := by
  rintro rfl
  rw [hf] at hg
  cases hg

namespace Report

/-- The report with more problems behind those it has. -/
def extend (r : Report) (ds : List Diagnostic) : Report :=
  { r with diagnostics := r.diagnostics ++ ds }

@[simp] theorem extend_stage (r : Report) (ds : List Diagnostic) : (r.extend ds).stage = r.stage := rfl

@[simp] theorem extend_diagnostics (r : Report) (ds : List Diagnostic) :
    (r.extend ds).diagnostics = r.diagnostics ++ ds := rfl

@[simp] theorem extend_nil (r : Report) : r.extend [] = r := by
  simp [extend]

theorem extend_extend (r : Report) (ds es : List Diagnostic) :
    (r.extend ds).extend es = r.extend (ds ++ es) := by
  simp [extend]

theorem record_eq_extend (r : Report) (f : Fault) (line : Nat) :
    r.record f line = r.extend (Diagnostic.all r.stage line [f]) := rfl

theorem recordIf_eq_extend (r : Report) (b : Bool) (f : Fault) (line : Nat) :
    r.recordIf b f line = r.extend (Diagnostic.all r.stage line (if b then [f] else [])) := by
  cases b with
  | false => simp [recordIf]
  | true => rfl

/-- The second report is the first with problems of one line, all of a kind. -/
def Grows (P : Fault → Prop) (line : Nat) (r r' : Report) : Prop :=
  ∃ fs, (∀ f ∈ fs, P f) ∧ r' = r.extend (Diagnostic.all r.stage line fs)

theorem Grows.refl (P : Fault → Prop) (line : Nat) (r : Report) : Grows P line r r :=
  ⟨[], by simp, by simp⟩

theorem Grows.trans {P : Fault → Prop} {line : Nat} {r r' r'' : Report} (h : Grows P line r r')
    (h' : Grows P line r' r'') : Grows P line r r'' := by
  obtain ⟨fs, hfs, rfl⟩ := h
  obtain ⟨gs, hgs, rfl⟩ := h'
  refine ⟨fs ++ gs, List.forall_mem_append.2 ⟨hfs, hgs⟩, ?_⟩
  rw [extend_stage, extend_extend, Diagnostic.all_append]

theorem grows_record {P : Fault → Prop} {f : Fault} (hf : P f) (r : Report) (line : Nat) :
    Grows P line r (r.record f line) :=
  ⟨[f], by simpa using hf, rfl⟩

theorem grows_recordIf {P : Fault → Prop} {f : Fault} (hf : P f) (r : Report) (b : Bool)
    (line : Nat) : Grows P line r (r.recordIf b f line) := by
  cases b with
  | false => exact Grows.refl P line r
  | true => exact grows_record hf r line

/-- A problem that was added is of the kind and on the line. -/
theorem Grows.mem_diagnostics {P : Fault → Prop} {line : Nat} {r r' : Report}
    (h : Grows P line r r') {d : Diagnostic} (hd : d ∈ r'.diagnostics) :
    d ∈ r.diagnostics ∨ P d.fault ∧ d.line = line := by
  obtain ⟨fs, hfs, rfl⟩ := h
  rcases List.mem_append.1 hd with hd | hd
  · exact Or.inl hd
  · obtain ⟨f, hf, rfl⟩ := List.mem_map.1 hd
    exact Or.inr ⟨hfs f hf, rfl⟩

@[simp] theorem enter_stage (r : Report) (s : Stage) : (r.enter s).stage = s := rfl

@[simp] theorem enter_diagnostics (r : Report) (s : Stage) :
    (r.enter s).diagnostics = r.diagnostics := rfl

@[simp] theorem isFatal_enter (r : Report) (s : Stage) : (r.enter s).isFatal = r.isFatal := rfl

theorem isFatal_extend (r : Report) (ds : List Diagnostic) :
    (r.extend ds).isFatal = (r.isFatal || ds.any fun d => d.fault.isFatal) := by
  simp [isFatal]

theorem isFatal_record {r : Report} {f : Fault} (h : f.isFatal = true) (line : Nat) :
    (r.record f line).isFatal = true := by
  simp [isFatal, record, h]

theorem isFatal_eq_false_iff {r : Report} :
    r.isFatal = false ↔ ∀ d ∈ r.diagnostics, d.fault.isFatal = false := by
  simp [isFatal]

/-- Faults that are not fatal do not stop the work. -/
theorem isFatal_extend_all {r : Report} {stage : Stage} {line : Nat} {fs : List Fault}
    (hr : r.isFatal = false) (hfs : ∀ f ∈ fs, f.isFatal = false) :
    (r.extend (Diagnostic.all stage line fs)).isFatal = false := by
  rw [isFatal_extend, hr, Bool.false_or, List.any_eq_false]
  intro d hd
  obtain ⟨f, hf, rfl⟩ := List.mem_map.1 hd
  simp [hfs f hf]

theorem errorCount_eq_zero_iff {r : Report} :
    r.errorCount = 0 ↔ ∀ d ∈ r.diagnostics, d.fault.severity = .note := by
  simp [errorCount, List.countP_eq_zero]

end Report
end TenBit
