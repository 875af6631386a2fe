/-
# The outline of a program

What a program is about does not depend on the order in which the assembler
finds it out: the statements of its lines, how much code and data they take, the
labels they carry, the names they declare, use and export. Here these are read
off the list of statements, and so is the place of each name: code follows the
base of memory in the order of the instructions, data is counted from zero.

Key definitions: `Outline.statements`, `Outline.codeSize`, `Outline.dataSize`,
`Outline.bindings`, `Outline.Fits`, `Outline.labels`, `Outline.externals`,
`Outline.entries`, `Outline.operandNames`.
Key theorems: `Outline.mem_statements_iff`, `Outline.bindingsFrom_append`,
`Outline.bindingsFrom_bound`.
-/
import Mathlib.Algebra.GroupWithZero.Nat
import TenBit.Proofs.Statement.WellFormed
import TenBit.Proofs.Symbol.Lookup
import TenBit.Source.Line

namespace TenBit

namespace Statement

/-- The words of code that a statement takes. -/
def codeSize : Statement → Nat
  | .instruction _ i => i.wordCount
  | _ => 0

/-- The cells of the data area that a statement takes. -/
def dataSize : Statement → Nat
  | .directive _ d => d.dataSize
  | _ => 0

/-- The label of a statement that takes memory. -/
def label? : Statement → Option Text
  | .instruction l _ => l
  | .directive l d => if d.takesMemory then l else none
  | _ => none

/-- The name a statement declares as external. -/
def externalName? : Statement → Option Text
  | .directive _ (.external n) => some n
  | _ => none

/-- The name a statement declares as an entry. -/
def entryName? : Statement → Option Text
  | .directive _ (.entry n) => some n
  | _ => none

/-- The instruction of a statement. -/
def instruction? : Statement → Option Instruction
  | .instruction _ i => some i
  | _ => none

/-- The names that the operands of a statement refer to. -/
def operandNames : Statement → List Text
  | .instruction _ i => i.operands.filterMap Operand.name?
  | _ => []

/-- What a label in front of a directive stands for. -/
def dataKind : Directive → SymbolKind
  | .matrix .. => .matrix
  | _ => .data

/-- What a statement binds, if code has come to cell `code` and data to cell
`data` of its area. -/
def binding? (code data : Nat) (s : Statement) : Option Binding :=
  match s with
  | .blank => none
  | .comment => none
  | .instruction l _ => l.map fun n => { name := n, kind := .code, address := code }
  | .directive _ (.external n) => some { name := n, kind := .external, address := 0 }
  | .directive l d =>
    if d.takesMemory then l.map fun n => { name := n, kind := dataKind d, address := data } else none

theorem dataKind_ne_external (d : Directive) : dataKind d ≠ .external := by
  cases d <;> simp [dataKind]

theorem binding?_of_takesMemory (code data : Nat) (label : Option Text) {d : Directive}
    (hd : d.takesMemory = true) : (Statement.directive label d).binding? code data =
      label.map fun n => { name := n, kind := dataKind d, address := data } := by
  cases d with
  | data vs => rfl
  | string t => rfl
  | matrix dimensions vs => rfl
  | entry n => cases hd
  | external n => cases hd

/-- The bindings of one statement lie in the cells that the statement takes. -/
theorem binding?_bound {s : Statement} {code data : Nat} {b : Binding} (hs : s.Sound)
    (h : s.binding? code data = some b) :
    b.entry = false ∧
      (b.kind = .code → b.address = code ∧ 0 < s.codeSize) ∧
      (b.kind.isData = true → b.address = data ∧ 0 < s.dataSize) ∧
      (b.kind = .external → b.address = 0) := by
  cases s with
  | blank => cases h
  | comment => cases h
  | instruction label i =>
    obtain ⟨n, -, rfl⟩ := Option.map_eq_some_iff.1 h
    exact ⟨rfl, fun _ => ⟨rfl, i.wordCount_pos⟩, nofun, nofun⟩
  | directive label d =>
    by_cases hd : d.takesMemory = true
    · rw [binding?_of_takesMemory _ _ _ hd] at h
      obtain ⟨n, -, rfl⟩ := Option.map_eq_some_iff.1 h
      refine ⟨rfl, fun hk => ?_, fun _ => ⟨rfl, hs hd⟩, fun hk => absurd hk ?_⟩
      · cases d <;> cases hk
      · exact dataKind_ne_external d
    · cases d with
      | data vs => exact absurd rfl hd
      | string t => exact absurd rfl hd
      | matrix dimensions vs => exact absurd rfl hd
      | entry n => cases h
      | external n =>
        cases h
        exact ⟨rfl, nofun, nofun, fun _ => rfl⟩

end Statement

namespace Outline

/-- The statements of the lines that can be read, in order. -/
def statements (macros : MacroTable) (lines : List SourceLine) : List Statement :=
  lines.filterMap fun l => (Statement.read macros l.text).toOption

/-- The words of code of a program. -/
def codeSize (ss : List Statement) : Nat := (ss.map Statement.codeSize).sum

/-- The cells of data of a program. -/
def dataSize (ss : List Statement) : Nat := (ss.map Statement.dataSize).sum

/-- Code and data fit into memory behind the reserved cells. -/
def Fits (ss : List Statement) : Prop := codeBase + codeSize ss + dataSize ss ≤ memorySize

instance (ss : List Statement) : Decidable (Fits ss) := inferInstanceAs (Decidable (_ ≤ _))

/-- The labels of instructions and of directives that take memory. -/
def labels (ss : List Statement) : List Text := ss.filterMap Statement.label?

/-- The names declared as external. -/
def externals (ss : List Statement) : List Text := ss.filterMap Statement.externalName?

/-- The names declared as entries. -/
def entries (ss : List Statement) : List Text := ss.filterMap Statement.entryName?

/-- The instructions of a program. -/
def instructions (ss : List Statement) : List Instruction := ss.filterMap Statement.instruction?

/-- The names used as operands. -/
def operandNames (ss : List Statement) : List Text := ss.flatMap Statement.operandNames

/-- What the statements bind, if code starts at cell `code` and data at cell
`data` of its area. -/
def bindingsFrom : (code data : Nat) → List Statement → List Binding
  | _, _, [] => []
  | code, data, s :: ss =>
    (s.binding? code data).toList ++ bindingsFrom (code + s.codeSize) (data + s.dataSize) ss

/-- What a program binds, with data counted from the start of its area. -/
def bindings (ss : List Statement) : List Binding := bindingsFrom codeBase 0 ss

/-! ### Appending -/

@[simp] theorem codeSize_nil : codeSize [] = 0 := rfl

@[simp] theorem dataSize_nil : dataSize [] = 0 := rfl

@[simp] theorem codeSize_cons (s : Statement) (ss : List Statement) :
    codeSize (s :: ss) = s.codeSize + codeSize ss := by
  simp [codeSize]

@[simp] theorem dataSize_cons (s : Statement) (ss : List Statement) :
    dataSize (s :: ss) = s.dataSize + dataSize ss := by
  simp [dataSize]

@[simp] theorem codeSize_append (ss ts : List Statement) :
    codeSize (ss ++ ts) = codeSize ss + codeSize ts := by
  simp [codeSize]

@[simp] theorem dataSize_append (ss ts : List Statement) :
    dataSize (ss ++ ts) = dataSize ss + dataSize ts := by
  simp [dataSize]

theorem Fits.of_append {ss ts : List Statement} (h : Fits (ss ++ ts)) : Fits ss := by
  simp only [Fits, codeSize_append, dataSize_append] at h ⊢
  omega

theorem statements_cons (macros : MacroTable) (l : SourceLine) (ls : List SourceLine) :
    statements macros (l :: ls) =
      (Statement.read macros l.text).toOption.toList ++ statements macros ls := by
  simp only [statements, List.filterMap_cons]
  cases (Statement.read macros l.text).toOption with
  | none => rfl
  | some s => rfl

theorem statements_append (macros : MacroTable) (ks ls : List SourceLine) :
    statements macros (ks ++ ls) = statements macros ks ++ statements macros ls := by
  rw [statements, List.filterMap_append]
  rfl

theorem bindingsFrom_append : ∀ (code data : Nat) (ss ts : List Statement),
    bindingsFrom code data (ss ++ ts) =
      bindingsFrom code data ss ++ bindingsFrom (code + codeSize ss) (data + dataSize ss) ts
  | code, data, [], ts => rfl
  | code, data, s :: ss, ts => by
    simp only [List.cons_append, bindingsFrom, codeSize_cons, dataSize_cons, List.append_assoc,
      bindingsFrom_append _ _ ss ts, Nat.add_assoc]

/-- One more statement binds one more name, or none. -/
theorem bindings_append_singleton (ss : List Statement) (s : Statement) :
    bindings (ss ++ [s]) =
      bindings ss ++ (s.binding? (codeBase + codeSize ss) (dataSize ss)).toList := by
  simp [bindings, bindingsFrom_append, bindingsFrom]

theorem mem_statements_iff {macros : MacroTable} {lines : List SourceLine} {s : Statement} :
    s ∈ statements macros lines ↔ ∃ l ∈ lines, Statement.read macros l.text = .ok s := by
  have hok : ∀ r : Except Fault Statement, r.toOption = some s ↔ r = .ok s := by
    intro r
    cases r <;> simp [Except.toOption]
  simp only [statements, List.mem_filterMap, hok]

theorem sound_of_mem_statements (macros : MacroTable) (lines : List SourceLine) :
    ∀ s ∈ statements macros lines, s.Sound := by
  intro s hs
  obtain ⟨l, -, hl⟩ := mem_statements_iff.1 hs
  exact Statement.sound_of_read hl

/-! ### Where names are bound -/

/-- The bindings of a run of statements lie in the cells that the run takes. -/
theorem bindingsFrom_bound : ∀ {ss : List Statement} (code data : Nat), (∀ s ∈ ss, s.Sound) →
    ∀ b ∈ bindingsFrom code data ss, b.entry = false ∧
      (b.kind = .code → code ≤ b.address ∧ b.address < code + codeSize ss) ∧
      (b.kind.isData = true → data ≤ b.address ∧ b.address < data + dataSize ss) ∧
      (b.kind = .external → b.address = 0)
  | [], _, _, _, b, hb => by cases hb
  | s :: ss, code, data, hss, b, hb => by
    rw [codeSize_cons, dataSize_cons]
    rcases List.mem_append.1 hb with hb | hb
    · obtain ⟨h₁, h₂, h₃, h₄⟩ :=
        Statement.binding?_bound (hss s List.mem_cons_self) (Option.mem_toList.1 hb)
      refine ⟨h₁, fun hk => ?_, fun hk => ?_, h₄⟩
      · have := h₂ hk
        omega
      · have := h₃ hk
        omega
    · obtain ⟨h₁, h₂, h₃, h₄⟩ := bindingsFrom_bound (code + s.codeSize) (data + s.dataSize)
        (fun s' hs' => hss s' (List.mem_cons_of_mem _ hs')) b hb
      refine ⟨h₁, fun hk => ?_, fun hk => ?_, h₄⟩
      · have := h₂ hk
        omega
      · have := h₃ hk
        omega

theorem bindings_data_lt {ss : List Statement} (hss : ∀ s ∈ ss, s.Sound) {b : Binding}
    (hb : b ∈ bindings ss) (hk : b.kind.isData = true) : b.address < dataSize ss := by
  have h := ((bindingsFrom_bound codeBase 0 hss b hb).2.2.1 hk).2
  omega

end Outline
end TenBit
