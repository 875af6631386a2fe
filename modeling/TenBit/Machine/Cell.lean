/-
# Memory cells

A cell holds ten bits. Read as a number it is signed, in two's complement, from
-512 to 511.

Key definitions: `Cell`, `Cell.ofInt`, `Cell.ofNat`, `Cell.toInt`,
`Cell.field`, `Cell.letters`.
-/
import TenBit.Machine.Quaternary
import TenBit.Text.Decimal

namespace TenBit

/-- Why a number has no place in a cell or an address. -/
inductive RangeError
  | tooLarge
  | tooSmall
deriving DecidableEq, Repr

/-- The wording of a range error. -/
def RangeError.message : RangeError → String
  | .tooLarge => "value is too large"
  | .tooSmall => "value is too small"

/-- The contents of one memory cell. -/
structure Cell where
  bits : BitVec 10
deriving DecidableEq, Repr

namespace Cell

/-- The least number a cell holds. -/
def least : Int := -512

/-- The greatest number a cell holds. -/
def greatest : Int := 511

/-- The cell all of whose bits are clear. -/
def zero : Cell := ⟨0⟩

/-- The cell that holds a signed number. -/
def ofInt (n : Int) : Except RangeError Cell :=
  if n < least then .error .tooSmall
  else if greatest < n then .error .tooLarge
  else .ok ⟨BitVec.ofInt 10 n⟩

/-- The cell with the given bits. -/
def ofNat (n : Nat) : Except RangeError Cell :=
  if n < 1024 then .ok ⟨BitVec.ofNat 10 n⟩ else .error .tooLarge

/-- The cell of a byte. -/
def ofByte (b : UInt8) : Cell := ⟨BitVec.ofNat 10 b.toNat⟩

/-- The bits of a cell as a number without sign. -/
def toNat (c : Cell) : Nat := c.bits.toNat

/-- The signed number in a cell. -/
def toInt (c : Cell) : Int := c.bits.toInt

/-- The `width` bits of a cell from bit `shift` on. -/
def field (c : Cell) (shift width : Nat) : BitVec width := c.bits.extractLsb' shift width

/-- The letters of a cell in an object file. -/
def letters (c : Cell) : Text := Quaternary.letters 5 c.toNat

/-- The cell in octal. -/
def octal (c : Cell) : Text := Nat.toDigits 8 c.toNat

/-- The cell in octal with the mark `0o`, filled up with zeroes to `width`
characters in all. -/
def markedOctal (c : Cell) (width : Nat) : Text :=
  '0' :: 'o' :: c.octal.leftpad (width - 2) '0'

/-- The cell for inspection. -/
def inspect (c : Cell) : String :=
  let digits := String.ofList (c.markedOctal 6)
  s!"Unsigned10Bit({digits})"

end Cell
end TenBit
