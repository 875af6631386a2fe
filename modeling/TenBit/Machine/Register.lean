/-
# Registers

The machine has eight general registers, `r0` to `r7`.

Key definitions: `Register`, `Register.ofNumber?`, `Register.ofName?`.
-/
import TenBit.Text.Blank

namespace TenBit

/-- One of the eight registers. -/
structure Register where
  number : Fin 8
deriving DecidableEq, Repr

namespace Register

/-- The registers in the order of their numbers. -/
def all : List Register := (List.finRange 8).map Register.mk

/-- The register that stands where there is none. -/
def zero : Register := ⟨0⟩

/-- The register with a given number. -/
def ofNumber? (n : Nat) : Option Register :=
  if h : n < 8 then some ⟨⟨n, h⟩⟩ else none

/-- The code of a register in a word. -/
def code (r : Register) : BitVec 4 := BitVec.ofNat 4 r.number

/-- The name of a register. -/
def name (r : Register) : Text := ['r', Char.ofNat ('0'.toNat + r.number)]

/-- The register with a given name. -/
def ofName? (t : Text) : Option Register := all.find? fun r => r.name == t

end Register
end TenBit
