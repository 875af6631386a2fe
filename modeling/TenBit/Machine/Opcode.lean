/-
# Operations and addressing modes

The machine has sixteen operations. Each takes none, one or two operands, and
says which addressing modes each of them may use; a single operand is the
destination.

Key definitions: `Mode`, `Opcode`, `Opcode.ofMnemonic?`,
`Opcode.operandCount`, `Opcode.sourceModes`, `Opcode.destinationModes`.
-/
import TenBit.Text.Blank

namespace TenBit

/-- How an operand is found. -/
inductive Mode
  /-- The value follows the instruction. -/
  | immediate
  /-- The address of the operand follows the instruction. -/
  | direct
  /-- The address of a matrix follows, then its row and column registers. -/
  | matrix
  /-- The operand is a register. -/
  | register
deriving DecidableEq, Repr

namespace Mode

/-- The modes in the order of their codes. -/
def all : List Mode := [.immediate, .direct, .matrix, .register]

/-- The code of a mode in the first word. -/
def code : Mode → BitVec 2
  | .immediate => 0
  | .direct => 1
  | .matrix => 2
  | .register => 3

/-- The mode with a given code. -/
def ofCode (b : BitVec 2) : Mode :=
  if b = 0 then .immediate else if b = 1 then .direct else if b = 2 then .matrix else .register

/-- The name of a mode. -/
def name : Mode → String
  | .immediate => "immediate"
  | .direct => "direct"
  | .matrix => "matrix"
  | .register => "register"

end Mode

/-- The operations, in the order of their codes. -/
inductive Opcode
  | mov | cmp | add | sub | lea | clr | not | inc
  | dec | jmp | bne | jsr | red | prn | rts | stop
deriving DecidableEq, Repr

namespace Opcode

/-- The operations in the order of their codes. -/
def all : List Opcode :=
  [mov, cmp, add, sub, lea, clr, not, inc, dec, jmp, bne, jsr, red, prn, rts, stop]

/-- The number of an operation. -/
def number : Opcode → Nat
  | mov => 0
  | cmp => 1
  | add => 2
  | sub => 3
  | lea => 4
  | clr => 5
  | not => 6
  | inc => 7
  | dec => 8
  | jmp => 9
  | bne => 10
  | jsr => 11
  | red => 12
  | prn => 13
  | rts => 14
  | stop => 15

/-- The operation with a given number. -/
def ofNumber? (n : Nat) : Option Opcode := all[n]?

/-- The code of an operation in the first word. -/
def code (o : Opcode) : BitVec 4 := BitVec.ofNat 4 o.number

/-- The operation with a given code. -/
def ofCode (b : BitVec 4) : Opcode := (ofNumber? b.toNat).getD stop

/-- The name of an operation in a source. -/
def mnemonic : Opcode → Text
  | mov => "mov".toList
  | cmp => "cmp".toList
  | add => "add".toList
  | sub => "sub".toList
  | lea => "lea".toList
  | clr => "clr".toList
  | not => "not".toList
  | inc => "inc".toList
  | dec => "dec".toList
  | jmp => "jmp".toList
  | bne => "bne".toList
  | jsr => "jsr".toList
  | red => "red".toList
  | prn => "prn".toList
  | rts => "rts".toList
  | stop => "stop".toList

/-- The operation with a given name. Capitals do not match. -/
def ofMnemonic? (t : Text) : Option Opcode := all.find? fun o => o.mnemonic == t

/-- How a name that is no operation is refused. -/
def unknownMessage (t : Text) : String :=
  let name := String.ofList t
  s!"'{name}' is not an operation name"

/-- How many operands an operation takes. -/
def operandCount : Opcode → Nat
  | mov | cmp | add | sub | lea => 2
  | rts | stop => 0
  | _ => 1

/-- The modes the source operand may use. -/
def sourceModes : Opcode → List Mode
  | mov | cmp | add | sub => Mode.all
  | lea => [.direct, .matrix]
  | _ => []

/-- The modes the destination operand may use. -/
def destinationModes : Opcode → List Mode
  | cmp | prn => Mode.all
  | rts | stop => []
  | _ => [.direct, .matrix, .register]

/-- The source operand may use the mode. -/
def acceptsSource (o : Opcode) (m : Mode) : Bool := o.sourceModes.contains m

/-- The destination operand may use the mode. -/
def acceptsDestination (o : Opcode) (m : Mode) : Bool := o.destinationModes.contains m

end Opcode
end TenBit
