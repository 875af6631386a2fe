/-
# The words of an instruction

An instruction is its first word and the words of its operands, source before
destination. Two registers share a word; a lone one leaves the other half of
its word zero. Words that hold the address of a name are left open until the
symbols are known: an instruction is first a list of slots.

Key definitions: `Slot`, `Instruction.slots`.
Key theorem: `Instruction.length_slots`.
-/
import TenBit.Machine.Word
import TenBit.Statement.Basic

namespace TenBit

/-- A word of an instruction, or the name whose address it will hold. -/
inductive Slot
  | word (w : Word)
  | reference (name : Text)
deriving DecidableEq, Repr

/-- The slots of an operand; `lone` makes the word of a register. -/
def Operand.slots (lone : Register → Word) : Operand → List Slot
  | immediate v => [.word (.immediate v .absolute)]
  | direct n => [.reference n]
  | matrix n r c => [.reference n, .word (.matrixRegisters r c .absolute)]
  | register r => [.word (lone r)]

theorem Operand.length_slots (lone : Register → Word) (o : Operand) :
    (o.slots lone).length = o.wordCount := by
  cases o <;> rfl

namespace Instruction

/-- The mode of an operand in the first word; an absent one has code zero. -/
def modeOf (o : Option WrittenOperand) : Mode :=
  match o with
  | none => .immediate
  | some w => w.operand.mode

/-- The first word of an instruction. -/
def firstWord (i : Instruction) : Word :=
  .first i.opcode (modeOf i.source) (modeOf i.destination) .absolute

/-- The slots of an operand that may be absent. -/
def slotsOf (lone : Register → Word) (o : Option WrittenOperand) : List Slot :=
  match o with
  | none => []
  | some w => w.operand.slots lone

/-- The slots behind the first word. -/
def operandSlots (i : Instruction) : List Slot :=
  match i.sharedRegisters? with
  | some (s, d) => [.word (.registers s d .absolute)]
  | none => slotsOf .sourceRegister i.source ++ slotsOf .destinationRegister i.destination

/-- The slots of an instruction. -/
def slots (i : Instruction) : List Slot := .word i.firstWord :: i.operandSlots

theorem length_slotsOf (lone : Register → Word) (o : Option WrittenOperand) :
    (slotsOf lone o).length = wordsOf o := by
  cases o with
  | none => rfl
  | some w => exact Operand.length_slots lone w.operand

/-- **The size of an instruction is the number of its slots.** -/
theorem length_slots (i : Instruction) : i.slots.length = i.wordCount := by
  unfold slots operandSlots wordCount
  split
  · rename_i h
    simp [h]
  · rename_i h
    simp only [h, Option.isSome_none, Bool.false_eq_true, if_false, List.length_cons,
      List.length_append, length_slotsOf]
    omega

end Instruction
end TenBit
