/-
# Machine words

Ten bits mean different things at different places of a program, and nothing in
the cell says which. A word is a cell together with its meaning; packing
forgets the meaning, and unpacking has to be told the kind of word to expect.

    kind              bits 9-6          bits 5-2                    bits 1-0
    first             operation         source mode, dest. mode     tag
    immediate         eight-bit value                               tag
    registers         source register   destination register        tag
    address           eight-bit address                             tag
    matrixRegisters   row register      column register             tag
    data              ten-bit value

Key definitions: `Word`, `WordKind`, `Word.cell`, `Word.unpack`.
-/
import TenBit.Machine.Address
import TenBit.Machine.Cell
import TenBit.Machine.Linkage
import TenBit.Machine.Opcode
import TenBit.Machine.Register

namespace TenBit

/-- The meanings a cell can have. -/
inductive WordKind
  | first | immediate | registers | address | matrixRegisters | data
deriving DecidableEq, Repr

/-- A cell with its meaning. -/
inductive Word
  /-- The first word of an instruction. The mode of an absent operand is
  immediate, whose code is zero. -/
  | first (opcode : Opcode) (source destination : Mode) (tag : Linkage)
  /-- The value of an immediate operand, in two's complement. -/
  | immediate (value : BitVec 8) (tag : Linkage)
  /-- Register operands. -/
  | registers (source destination : Register) (tag : Linkage)
  /-- The address of a named operand. -/
  | address (target : Address) (tag : Linkage)
  /-- The index registers of a matrix operand. -/
  | matrixRegisters (row column : Register) (tag : Linkage)
  /-- A cell of the data area. -/
  | data (value : Cell)
deriving DecidableEq, Repr

namespace Word

/-- The meaning of a word. -/
def kind : Word → WordKind
  | first .. => .first
  | immediate .. => .immediate
  | registers .. => .registers
  | address .. => .address
  | matrixRegisters .. => .matrixRegisters
  | data .. => .data

/-- The tag of a word. A data word has none and counts as absolute. -/
def tag : Word → Linkage
  | first _ _ _ t | immediate _ t | registers _ _ t | address _ t | matrixRegisters _ _ t => t
  | data _ => .absolute

/-- The bits of a word. -/
def cell : Word → Cell
  | first o s d t => ⟨o.code ++ s.code ++ d.code ++ t.code⟩
  | immediate v t => ⟨v ++ t.code⟩
  | registers s d t => ⟨s.code ++ d.code ++ t.code⟩
  | address a t => ⟨a.bits ++ t.code⟩
  | matrixRegisters r c t => ⟨r.code ++ c.code ++ t.code⟩
  | data c => c

/-- Why some bits are not a word of the expected kind. -/
inductive Malformed
  /-- No tag has this code. -/
  | badTag (code : Nat)
  /-- There is no register of this number. -/
  | badRegister (number : Nat)
deriving DecidableEq, Repr

/-- The wording of a malformed word. -/
def Malformed.message : Malformed → String
  | .badTag n =>
    let digits := String.ofList (Nat.toDigits 2 n)
    s!"ARE field value 0b{digits} is not valid"
  | .badRegister n => s!"register number {n} does not exist"

/-- The tag of a code; a code that is none is reported by its low byte. -/
def tagOfNat (n : Nat) : Except Malformed Linkage :=
  match Linkage.ofNat? n with
  | some t => .ok t
  | none => .error (.badTag (n % 256))

/-- The register of a number; a number that is none is reported by its low
byte. -/
def registerOfNat (n : Nat) : Except Malformed Register :=
  match Register.ofNumber? n with
  | some r => .ok r
  | none => .error (.badRegister (n % 256))

/-- The tag in the two low bits. -/
def unpackTag (c : Cell) : Except Malformed Linkage := tagOfNat (c.field 0 2).toNat

/-- The register in bits 6 to 9. -/
def unpackHigh (c : Cell) : Except Malformed Register := registerOfNat (c.field 6 4).toNat

/-- The register in bits 2 to 5. -/
def unpackLow (c : Cell) : Except Malformed Register := registerOfNat (c.field 2 4).toNat

/-- The word of a given kind with the given bits. -/
def unpack (k : WordKind) (c : Cell) : Except Malformed Word :=
  match k with
  | .first => do
    let t ← unpackTag c
    return first (Opcode.ofCode (c.field 6 4)) (Mode.ofCode (c.field 4 2))
      (Mode.ofCode (c.field 2 2)) t
  | .immediate => do
    let t ← unpackTag c
    return immediate (c.field 2 8) t
  | .registers => do
    let s ← unpackHigh c
    let d ← unpackLow c
    let t ← unpackTag c
    return registers s d t
  | .address => do
    let t ← unpackTag c
    return address (.ofBits (c.field 2 8)) t
  | .matrixRegisters => do
    let r ← unpackHigh c
    let k ← unpackLow c
    let t ← unpackTag c
    return matrixRegisters r k t
  | .data => .ok (data c)

/-- The word of a lone source register. -/
def sourceRegister (r : Register) : Word := registers r .zero .absolute

/-- The word of a lone destination register. -/
def destinationRegister (r : Register) : Word := registers .zero r .absolute

/-- The wording of a word. -/
def describe : Word → String
  | first o s d t =>
    let name := String.ofList o.mnemonic
    s!"{name} src={s.name} dst={d.name} {t.name}"
  | immediate v t => s!"#{v.toInt} {t.name}"
  | registers s d t =>
    let high := String.ofList s.name
    let low := String.ofList d.name
    s!"src={high} dst={low} {t.name}"
  | address a t => s!"@{a.toNat} {t.name}"
  | matrixRegisters r c t =>
    let row := String.ofList r.name
    let column := String.ofList c.name
    s!"[{row}][{column}] {t.name}"
  | data c => s!"data {c.toInt}"

end Word
end TenBit
