/-
# Statements

A line of a program is blank, a comment, a directive or an instruction; the
last two may carry a label. Directives put words into the data area or tell
about names, instructions put words into the code area. The sizes here are what
the first pass counts with, the words are what the second pass writes.

Key definitions: `Operand`, `Instruction`, `Instruction.wordCount`,
`Directive`, `Directive.dataSize`, `Directive.dataCells`, `Statement`.
-/
import TenBit.Machine.Cell
import TenBit.Machine.Opcode
import TenBit.Machine.Register
import TenBit.Text.Utf8

namespace TenBit

/-- What an operand refers to. -/
inductive Operand
  /-- A number, written after `#`. -/
  | immediate (value : BitVec 8)
  /-- The cell a name stands for. -/
  | direct (name : Text)
  /-- An element of a matrix. -/
  | matrix (name : Text) (row column : Register)
  /-- A register. -/
  | register (r : Register)
deriving DecidableEq, Repr

namespace Operand

/-- The addressing mode of an operand. -/
def mode : Operand → Mode
  | immediate _ => .immediate
  | direct _ => .direct
  | matrix .. => .matrix
  | register _ => .register

/-- The register, if the operand is one. -/
def register? : Operand → Option Register
  | register r => some r
  | _ => none

/-- The name an operand refers to. -/
def name? : Operand → Option Text
  | direct n => some n
  | matrix n _ _ => some n
  | _ => none

/-- How many words an operand takes behind the first word. -/
def wordCount : Operand → Nat
  | matrix .. => 2
  | _ => 1

end Operand

/-- An operand as it stands in the source. -/
structure WrittenOperand where
  text : Text
  operand : Operand
deriving DecidableEq, Repr

/-- An instruction. A single operand is the destination. -/
structure Instruction where
  opcode : Opcode
  source : Option WrittenOperand := none
  destination : Option WrittenOperand := none
deriving DecidableEq, Repr

namespace Instruction

/-- The operands, source first. -/
def operands (i : Instruction) : List Operand :=
  (i.source.toList ++ i.destination.toList).map WrittenOperand.operand

/-- The register of an operand that is there and is one. -/
def registerOf? (o : Option WrittenOperand) : Option Register :=
  o.bind fun w => w.operand.register?

/-- The two registers, if both operands are registers; they share a word. -/
def sharedRegisters? (i : Instruction) : Option (Register × Register) :=
  match registerOf? i.source, registerOf? i.destination with
  | some s, some d => some (s, d)
  | _, _ => none

/-- How many words an operand takes that may be absent. -/
def wordsOf (o : Option WrittenOperand) : Nat :=
  match o with
  | none => 0
  | some w => w.operand.wordCount

/-- How many words an instruction takes. -/
def wordCount (i : Instruction) : Nat :=
  if i.sharedRegisters?.isSome then 2 else 1 + wordsOf i.source + wordsOf i.destination

end Instruction

/-- The numbers of rows and columns of a matrix. -/
structure Dimensions where
  rows : Nat
  columns : Nat
deriving DecidableEq, Repr

/-- The number of cells of a matrix. -/
def Dimensions.cells (d : Dimensions) : Nat := d.rows * d.columns

/-- A directive. -/
inductive Directive
  /-- Numbers. -/
  | data (values : List Cell)
  /-- Characters, closed by a zero. -/
  | string (text : Text)
  /-- A matrix; cells without a value are zero. -/
  | matrix (dimensions : Option Dimensions) (values : List Cell)
  /-- A name other programs may use. -/
  | entry (name : Text)
  /-- A name of another program. -/
  | external (name : Text)
deriving DecidableEq, Repr

namespace Directive

/-- The word that starts a directive. -/
def keyword : Directive → String
  | data _ => ".data"
  | string _ => ".string"
  | matrix .. => ".mat"
  | entry _ => ".entry"
  | external _ => ".extern"

/-- The cells a directive puts into the data area. -/
def dataCells : Directive → List Cell
  | data vs => vs
  | string t => (Utf8.encode t).map Cell.ofByte ++ [Cell.zero]
  | matrix none vs => vs
  | matrix (some d) vs => (vs.take d.cells).rightpad d.cells Cell.zero
  | entry _ => []
  | external _ => []

/-- How many cells a directive takes in the data area. -/
def dataSize : Directive → Nat
  | data vs => vs.length
  | string t => (Utf8.encode t).length + 1
  | matrix none vs => vs.length
  | matrix (some d) _ => d.cells
  | entry _ => 0
  | external _ => 0

end Directive

/-- What a line says. -/
inductive Statement
  | blank
  | comment
  | directive (label : Option Text) (body : Directive)
  | instruction (label : Option Text) (body : Instruction)
deriving DecidableEq, Repr

/-- The label of a line. -/
def Statement.label : Statement → Option Text
  | blank => none
  | comment => none
  | directive l _ => l
  | instruction l _ => l

end TenBit
