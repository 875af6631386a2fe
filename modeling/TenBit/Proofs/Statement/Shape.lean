/-
# What both passes rely on in a statement

An instruction has the operands its operation takes, and a directive for the data
area takes at least one cell there. Both passes and everything that reads their
words back rely on this and on nothing else of how a line was read.

Key definitions: `Instruction.TakesOperands`, `Directive.takesMemory`,
`Directive.declaredName?`, `Statement.isCode`, `Statement.isData`,
`Statement.Sound`.
Key theorems: `Directive.length_dataCells`, `Instruction.wordCount_pos`,
`Instruction.sharedRegisters?_eq_some_iff`.
-/
import TenBit.Statement.Read

namespace TenBit

section Outcomes

variable {ε α β : Type}

theorem ok_of_bind {x : Except ε α} {f : α → Except ε β} {b : β} (h : x >>= f = .ok b) :
    ∃ a, x = .ok a ∧ f a = .ok b := by
  cases x with
  | ok a => exact ⟨a, rfl, h⟩
  | error e => cases h

theorem ok_of_map {x : Except ε α} {f : α → β} {b : β} (h : x.map f = .ok b) :
    ∃ a, x = .ok a ∧ f a = b := by
  cases x with
  | ok a => exact ⟨a, rfl, Except.ok.inj h⟩
  | error e => cases h

end Outcomes

/-! ### Sound statements -/

/-- The operands are as many as the operation takes. A single one is the
destination. -/
def Instruction.TakesOperands (i : Instruction) : Prop :=
  (i.source.isSome ↔ i.opcode.operandCount = 2) ∧ (i.destination.isSome ↔ 0 < i.opcode.operandCount)

/-- The directive puts cells into the data area. -/
def Directive.takesMemory : Directive → Bool
  | data _ | string _ | matrix .. => true
  | entry _ | external _ => false

/-- The name a directive tells about. -/
def Directive.declaredName? : Directive → Option Text
  | .entry n | .external n => some n
  | _ => none

/-- The statement is an instruction. -/
def Statement.isCode : Statement → Bool
  | .instruction .. => true
  | _ => false

/-- The statement puts cells into the data area. -/
def Statement.isData : Statement → Bool
  | .directive _ d => d.takesMemory
  | _ => false

/-- What reading promises about a statement. -/
def Statement.Sound : Statement → Prop
  | .blank | .comment => True
  | .directive _ d => d.takesMemory = true → 0 < d.dataSize
  | .instruction _ i => i.TakesOperands

/-! ### Sizes -/

/-- **The size of a directive is the number of its cells.** -/
theorem Directive.length_dataCells (d : Directive) : d.dataCells.length = d.dataSize := by
  cases d with
  | data vs => rfl
  | string t => simp [dataCells, dataSize]
  | matrix dimensions vs =>
    cases dimensions with
    | none => rfl
    | some d =>
      simp only [dataCells, dataSize, List.rightpad, List.length_append, List.length_replicate,
        List.length_take]
      omega
  | entry n => rfl
  | external n => rfl

theorem Instruction.wordCount_pos (i : Instruction) : 0 < i.wordCount := by
  unfold wordCount
  split <;> omega

theorem Opcode.operandCount_le_two (o : Opcode) : o.operandCount ≤ 2 := by
  cases o <;> decide

namespace Instruction

/-! ### Registers -/

theorem registerOf?_eq_some_iff {o : Option WrittenOperand} {r : Register} :
    registerOf? o = some r ↔ o.map WrittenOperand.operand = some (.register r) := by
  cases o with
  | none => simp [registerOf?]
  | some w =>
    simp only [registerOf?, Option.bind_some, Option.map_some, Option.some.injEq]
    cases w.operand <;> simp [Operand.register?]

/-- Only two registers share a word. -/
theorem sharedRegisters?_eq_some_iff {i : Instruction} {s d : Register} :
    i.sharedRegisters? = some (s, d) ↔
      i.source.map WrittenOperand.operand = some (.register s) ∧
        i.destination.map WrittenOperand.operand = some (.register d) := by
  rw [← registerOf?_eq_some_iff, ← registerOf?_eq_some_iff, sharedRegisters?]
  cases registerOf? i.source with
  | none => simp
  | some s' =>
    cases registerOf? i.destination with
    | none => simp
    | some d' => simp

end Instruction
end TenBit
