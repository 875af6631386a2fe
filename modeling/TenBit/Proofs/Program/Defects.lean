/-
# Every defect is reported once

What is wrong with a program can be told line by line, without addresses and
without the state of either pass. A line that cannot be read has one fault. A
label has to be new and an external name must not be a label already, so what
counts here is how the lines before define a name. An entry has to be a label and
an operand has to be defined, and for these it counts how all lines define it. As
long as nothing is fatal the two passes report exactly this, each defect once, on
its own line and in the order of the lines.

Key definitions: `Origin`, `Outline.origin?`, `Statement.namingDefects`,
`Statement.usageDefects`, `Outline.defects`.
Key theorems: `Outline.origin_find`, `Layout.problems_eq`, `Encoder.problems_eq`,
`Program.defects_exact`.
-/
import TenBit.Proofs.Program.Acceptance
import TenBit.Proofs.Program.Agreement

namespace TenBit

/-- How a name comes into a program: as a label of something in memory, or from
another program. -/
inductive Origin
  | label | external
deriving DecidableEq, Repr

/-- How a statement defines a name, if it does. -/
def Statement.origin? (n : Text) (s : Statement) : Option Origin :=
  if s.label? = some n then some .label
  else if s.externalName? = some n then some .external
  else none

/-- How the first statement that defines a name does so. -/
def Outline.origin? (ss : List Statement) (n : Text) : Option Origin :=
  ss.findSome? (Statement.origin? n)

namespace Statement

/-- What is wrong with a label behind the statements `before`: it may be defined
there. -/
def labelDefects (before : List Statement) : Option Text → List Fault
  | none => []
  | some n => if (Outline.origin? before n).isSome then [.duplicateSymbol] else []

/-- What is wrong with the names a statement defines behind the statements
`before`. An external name may be declared again. -/
def namingDefects (before : List Statement) : Statement → List Fault
  | .blank | .comment => []
  | .directive label (.entry _) => if label.isSome then [.entryLabelIgnored] else []
  | .directive label (.external n) =>
    (if label.isSome then [.externalLabelIgnored] else []) ++
      if Outline.origin? before n = some .label then [.duplicateSymbol] else []
  | .directive label _ => labelDefects before label
  | .instruction label _ => labelDefects before label

/-- What is wrong with the names a statement uses in a program of the statements
`all`. -/
def usageDefects (all : List Statement) : Statement → List Fault
  | .directive _ (.entry n) =>
    match Outline.origin? all n with
    | none => [.entryUndefined]
    | some .external => [.entryExternal]
    | some .label => []
  | s => (s.operandNames.filter fun n => (Outline.origin? all n).isNone).map fun _ =>
      .undefinedSymbol

end Statement

namespace Outline

/-- What is wrong with each line, apart from the names it uses, behind the
statements `before`. -/
def namingReport (macros : MacroTable) : (before : List Statement) → List SourceLine →
    List Diagnostic
  | _, [] => []
  | before, l :: ls =>
    match Statement.read macros l.text with
    | .error f => ⟨f, l.origin, .firstPass⟩ :: namingReport macros before ls
    | .ok s => Diagnostic.all .firstPass l.origin (s.namingDefects before) ++
        namingReport macros (before ++ [s]) ls

/-- What is wrong with the names that each line uses in a program of the
statements `all`. -/
def usageReport (macros : MacroTable) (all : List Statement) (ls : List SourceLine) :
    List Diagnostic :=
  ls.flatMap fun l =>
    match Statement.read macros l.text with
    | .error _ => []
    | .ok s => Diagnostic.all .secondPass l.origin (s.usageDefects all)

/-- The defects of a program. -/
def defects (macros : MacroTable) (ls : List SourceLine) : List Diagnostic :=
  namingReport macros [] ls ++ usageReport macros (statements macros ls) ls

end Outline

/-! ### Bindings show how names are defined -/

/-- How a binding came about. -/
def Binding.origin (b : Binding) : Origin := if b.kind = .external then .external else .label

theorem Statement.origin?_of_binding (n : Text) (s : Statement) (code data : Nat) :
    (Binding.find n (s.binding? code data).toList).map Binding.origin = s.origin? n := by
  have hlabel : ∀ (label : Option Text) (k : SymbolKind) (a : Nat), k ≠ .external →
      (Binding.find n
        (label.map fun m => ({ name := m, kind := k, address := a } : Binding)).toList).map
        Binding.origin = if label = some n then some .label else none := by
    intro label k a hk
    cases label with
    | none => rfl
    | some m => by_cases hm : m = n <;> simp [Binding.find, Binding.origin, hm, hk]
  cases s with
  | blank => rfl
  | comment => rfl
  | instruction label i =>
    rw [binding?, hlabel label .code code (by decide)]
    rfl
  | directive label d =>
    by_cases hd : d.takesMemory = true
    · rw [binding?_of_takesMemory code data label hd, hlabel label _ data (dataKind_ne_external d)]
      cases d with
      | external m => cases hd
      | _ => simp [origin?, label?, externalName?, Directive.takesMemory] at hd ⊢
    · cases d with
      | data vs => exact absurd rfl hd
      | string t => exact absurd rfl hd
      | matrix dimensions vs => exact absurd rfl hd
      | entry m => rfl
      | external m =>
        by_cases hm : m = n <;>
          simp [binding?, Binding.find, Binding.origin, origin?, label?, externalName?,
            Directive.takesMemory, hm]

namespace Outline

theorem origin_findFrom (n : Text) : ∀ (ss : List Statement) (code data : Nat),
    (Binding.find n (bindingsFrom code data ss)).map Binding.origin = origin? ss n
  | [], _, _ => rfl
  | s :: ss, code, data => by
    have ih := origin_findFrom n ss (code + s.codeSize) (data + s.dataSize)
    rw [bindingsFrom, Binding.find_append, Option.map_or, s.origin?_of_binding, ih, origin?,
      origin?, List.findSome?_cons]
    cases s.origin? n <;> rfl

/-- **The first binding of a name** is of the sort of its first definition. -/
theorem origin_find (ss : List Statement) (n : Text) :
    (Binding.find n (bindings ss)).map Binding.origin = origin? ss n :=
  origin_findFrom n ss codeBase 0

theorem isSome_origin? (ss : List Statement) (n : Text) :
    (origin? ss n).isSome = (Binding.find n (bindings ss)).isSome := by
  rw [← origin_find, Option.isSome_map]

end Outline

/-! ### The first pass -/

open Outline

namespace Statement

/-- A label clashes with what is defined before. -/
theorem clash_label (before : List Statement) (label : Option Text) {k : SymbolKind} (a : Nat)
    (hk : k ≠ .external) :
    Binding.clash (fun n => Binding.find n (bindings before))
        (label.map fun n => { name := n, kind := k, address := a }) =
      labelDefects before label := by
  cases label with
  | none => rfl
  | some n =>
    have hsome := isSome_origin? before n
    simp only [Option.map_some, Binding.clash, labelDefects, hsome]
    cases Binding.find n (bindings before) with
    | none => rfl
    | some b => simp [hk]

/-- An external name clashes with a label of the same name. -/
theorem clash_external (before : List Statement) (n : Text) :
    Binding.clash (fun n => Binding.find n (bindings before))
        (some { name := n, kind := .external, address := 0 }) =
      if Outline.origin? before n = some .label then [.duplicateSymbol] else [] := by
  rw [← origin_find]
  simp only [Binding.clash]
  cases Binding.find n (bindings before) with
  | none => rfl
  | some b => by_cases hb : b.kind = .external <;> simp [Binding.origin, hb]

end Statement

namespace Layout

/-- **What the first pass says about a statement** is what is wrong with its
names. -/
theorem faults_ok (before : List Statement) (s : Statement) :
    faults before (.ok s) = s.namingDefects before := by
  have hcode : SymbolKind.code ≠ .external := by decide
  cases s with
  | blank => rfl
  | comment => rfl
  | instruction label i => exact Statement.clash_label before label _ hcode
  | directive label d =>
    cases d with
    | data vs =>
      exact Statement.clash_label before label _ (Statement.dataKind_ne_external (.data vs))
    | string t =>
      exact Statement.clash_label before label _ (Statement.dataKind_ne_external (.string t))
    | matrix dimensions vs =>
      exact Statement.clash_label before label _
        (Statement.dataKind_ne_external (.matrix dimensions vs))
    | entry n => exact List.append_nil _
    | external n =>
      exact congrArg (Statement.ignoredLabel (.directive label (.external n)) ++ ·)
        (Statement.clash_external before n)

theorem problems_eq (macros : MacroTable) : ∀ (ls : List SourceLine) (before : List Statement),
    problems macros before ls = namingReport macros before ls
  | [], _ => rfl
  | l :: ls, before => by
    rw [problems, namingReport]
    cases hr : Statement.read macros l.text with
    | error f =>
      simp only [Except.toOption, Option.toList_none, List.append_nil, problems_eq macros ls before]
      rfl
    | ok s =>
      simp only [Except.toOption, Option.toList_some, problems_eq macros ls, faults_ok]

end Layout

/-! ### The second pass -/

namespace Instruction

variable {places : Text → Option (SymbolKind × Address)}

theorem flatMap_faults_slotsOf (lone : Register → Word) (o : Option WrittenOperand) :
    (slotsOf lone o).flatMap (Slot.faults places) =
      (((o.toList.map WrittenOperand.operand).filterMap Operand.name?).filter fun n =>
        (places n).isNone).map fun _ => .undefinedSymbol := by
  have hname : ∀ n : Text, (if (places n).isNone then [Fault.undefinedSymbol] else []) =
      ([n].filter fun n => (places n).isNone).map fun _ => .undefinedSymbol := by
    intro n
    cases h : (places n).isNone <;> simp [h]
  cases o with
  | none => rfl
  | some w =>
    obtain ⟨text, operand⟩ := w
    cases operand with
    | immediate v => rfl
    | register r => rfl
    | direct n => simpa [slotsOf, Operand.slots, Slot.faults, Operand.name?] using hname n
    | matrix n r c => simpa [slotsOf, Operand.slots, Slot.faults, Operand.name?] using hname n

/-- **What is wrong with the slots of an instruction**: one fault for each name
that is not known, in the order of the operands. -/
theorem flatMap_faults_slots (i : Instruction) :
    i.slots.flatMap (Slot.faults places) =
      ((i.operands.filterMap Operand.name?).filter fun n => (places n).isNone).map fun _ =>
        .undefinedSymbol := by
  have hfirst : i.slots.flatMap (Slot.faults places) =
      i.operandSlots.flatMap (Slot.faults places) := rfl
  rw [hfirst, operandSlots, operands, List.map_append, List.filterMap_append, List.filter_append,
    List.map_append, ← flatMap_faults_slotsOf .sourceRegister,
    ← flatMap_faults_slotsOf .destinationRegister]
  cases hshared : i.sharedRegisters? with
  | none => rw [List.flatMap_append]
  | some pair =>
    -- two registers share a word, and neither has a name
    obtain ⟨hs, hd⟩ := sharedRegisters?_eq_some_iff.1 hshared
    obtain ⟨ws, hws, hs⟩ := Option.map_eq_some_iff.1 hs
    obtain ⟨wd, hwd, hd⟩ := Option.map_eq_some_iff.1 hd
    rw [hws, hwd, slotsOf, slotsOf, hs, hd]
    rfl

end Instruction

namespace Statement

variable {places : Text → Option (SymbolKind × Address)} {all : List Statement}

/-- **What the second pass says about a statement** is what is wrong with the
names it uses, if names have places of the sort of their first definitions. -/
theorem encodingFaults_eq (hplaces : ∀ n, (places n).map Prod.fst =
      (Binding.find n (bindings all)).map Binding.kind) (s : Statement) :
    s.encodingFaults places = s.usageDefects all := by
  have hnone : ∀ n, (places n).isNone = (Outline.origin? all n).isNone := by
    intro n
    rw [← Option.isNone_map (f := Prod.fst), hplaces, Option.isNone_map, ← origin_find,
      Option.isNone_map]
  cases s with
  | blank => rfl
  | comment => rfl
  | instruction label i =>
    show i.slots.flatMap (Slot.faults places) = _
    rw [Instruction.flatMap_faults_slots]
    simp only [hnone]
    rfl
  | directive label d =>
    cases d with
    | data vs => rfl
    | string t => rfl
    | matrix dimensions vs => rfl
    | external n => rfl
    | entry n =>
      have hn := hplaces n
      rw [encodingFaults, usageDefects, ← origin_find]
      cases hfind : Binding.find n (bindings all) with
      | none =>
        rw [hfind, Option.map_none, Option.map_eq_none_iff] at hn
        rw [hn]
        rfl
      | some b =>
        rw [hfind, Option.map_some, Option.map_eq_some_iff] at hn
        obtain ⟨⟨k, a⟩, hplace, rfl⟩ := hn
        rw [hplace]
        by_cases hk : b.kind = .external <;> simp [entryFaults, Binding.origin, hk]

end Statement

theorem Encoder.problems_eq {macros : MacroTable} {places : Text → Option (SymbolKind × Address)}
    {all : List Statement} (hplaces : ∀ n, (places n).map Prod.fst =
      (Binding.find n (bindings all)).map Binding.kind) (ls : List SourceLine) :
    problems macros places ls = usageReport macros all ls := by
  rw [problems, usageReport]
  congr 1
  funext l
  cases Statement.read macros l.text with
  | error f => rfl
  | ok s =>
    simp only [faults, Statement.encodingFaults_eq hplaces]

/-! ### Both passes -/

namespace Program

/-- An attempt without a fatal problem is about a program that fits. -/
theorem fits_of_not_fatal {x : Expansion} (h : (reportOf (ofExpansion x)).isFatal = false) :
    x.report.isFatal = false ∧ Fits (statements x.macros x.lines) := by
  rw [← Layout.isFatal_ofLines_iff]
  by_contra hfatal
  have hstopped : (Layout.ofLines x.macros x.report x.lines).report.isFatal = true := by
    simpa using hfatal
  simp [ofExpansion, hstopped, reportOf] at h

/-- What an attempt reports about a program that fits. -/
theorem diagnostics_of_fits {x : Expansion} (hx : x.report.isFatal = false)
    (hfits : Fits (statements x.macros x.lines)) :
    (reportOf (ofExpansion x)).diagnostics = x.report.diagnostics ++ problems x := by
  obtain ⟨p, r, hr, hresult, hp⟩ := ofExpansion_of_fits hx hfits
  rw [hresult]
  split
  · exact hr
  · exact (hp (by omega)).report

/-- **Every defect is reported once, where it is.** Unless something is fatal, the
passes report the defects of the program behind what was reported before. -/
theorem defects_exact {x : Expansion} (h : (reportOf (ofExpansion x)).isFatal = false) :
    (reportOf (ofExpansion x)).diagnostics =
      x.report.diagnostics ++ defects x.macros x.lines := by
  obtain ⟨hx, hfits⟩ := fits_of_not_fatal h
  rw [diagnostics_of_fits hx hfits, problems, defects, Layout.problems_eq,
    Encoder.problems_eq (laidOut_places hx hfits)]

/-- Lines with a defect of each sort: a label defined twice, a line that cannot be
read, labels that define nothing, an external name that is a label and the other
way round, operands and entries that are not defined, and an external entry. -/
def defective : Expansion where
  lines := [
    ⟨1, "A: cmp B, C[r1][r2]".toList⟩,
    ⟨2, "A: .data 1, 2".toList⟩,
    ⟨3, "A: mov r1".toList⟩,
    ⟨4, "L: .entry A".toList⟩,
    ⟨5, "L: .extern A".toList⟩,
    ⟨6, ".extern X".toList⟩,
    ⟨7, ".extern X".toList⟩,
    ⟨8, "X: jmp L".toList⟩,
    ⟨9, ".entry X".toList⟩,
    ⟨10, ".entry L".toList⟩]
  macros := .empty
  report := .new []

set_option maxRecDepth 10000 in
theorem defective_not_fatal : (reportOf (ofExpansion defective)).isFatal = false := rfl

set_option maxRecDepth 10000 in
theorem defects_exact_defective : (reportOf (ofExpansion defective)).isFatal = false ∧
    (reportOf (ofExpansion defective)).diagnostics = [
      ⟨.duplicateSymbol, 2, .firstPass⟩,
      ⟨.operandMissing, 3, .firstPass⟩,
      ⟨.entryLabelIgnored, 4, .firstPass⟩,
      ⟨.externalLabelIgnored, 5, .firstPass⟩,
      ⟨.duplicateSymbol, 5, .firstPass⟩,
      ⟨.duplicateSymbol, 8, .firstPass⟩,
      ⟨.undefinedSymbol, 1, .secondPass⟩,
      ⟨.undefinedSymbol, 1, .secondPass⟩,
      ⟨.undefinedSymbol, 8, .secondPass⟩,
      ⟨.entryExternal, 9, .secondPass⟩,
      ⟨.entryUndefined, 10, .secondPass⟩] := by
  refine ⟨defective_not_fatal, ?_⟩
  rw [defects_exact defective_not_fatal]
  rfl

end Program
end TenBit
