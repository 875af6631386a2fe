/-
# Addresses

The memory has 256 cells. Programs are loaded from cell 100 on; the cells below
are reserved.

Key definitions: `Address`, `Address.ofNat?`, `Address.advance?`,
`Address.letters`.
-/
import TenBit.Machine.Quaternary

namespace TenBit

/-- The number of cells in memory. -/
def memorySize : Nat := 256

/-- The cell where programs start. -/
def codeBase : Nat := 100

/-- The location of a cell. -/
structure Address where
  toNat : Nat
  isLt : toNat < memorySize := by decide
deriving DecidableEq, Repr

namespace Address

/-- The first cell of memory. -/
def zero : Address := ⟨0, by decide⟩

/-- The first cell of a program. -/
def base : Address := ⟨codeBase, by decide⟩

/-- The cell with a given number, if there is one. -/
def ofNat? (n : Nat) : Option Address :=
  if h : n < memorySize then some ⟨n, h⟩ else none

/-- The cell `n` further on, if there is one. -/
def advance? (a : Address) (n : Nat) : Option Address := ofNat? (a.toNat + n)

theorem eq_of_toNat : ∀ {a b : Address}, a.toNat = b.toNat → a = b
  | ⟨_, _⟩, ⟨_, _⟩, rfl => rfl

theorem advance?_eq_some_iff {a b : Address} {n : Nat} :
    a.advance? n = some b ↔ b.toNat = a.toNat + n := by
  unfold advance? ofNat?
  split
  · rw [Option.some.injEq]
    exact ⟨fun h => h ▸ rfl, fun h => eq_of_toNat h.symm⟩
  · rename_i hge
    exact iff_of_false nofun fun h => hge (h ▸ b.isLt)

/-- The bits of an address. -/
def bits (a : Address) : BitVec 8 := BitVec.ofNat 8 a.toNat

/-- The address with given bits. -/
def ofBits (b : BitVec 8) : Address := ⟨b.toNat, b.isLt⟩

/-- The letters of an address in an object file. -/
def letters (a : Address) : Text := Quaternary.letters 4 a.toNat

/-- The address for inspection. -/
def inspect (a : Address) : String := s!"Address({a.toNat})"

end Address
end TenBit
