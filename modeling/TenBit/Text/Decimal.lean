/-
# Decimal numerals

Numbers are kept within the bounds of an integer type. A numeral is read digit by
digit, and reading fails where the number made of the digits so far would leave
the bounds. Only the ten ASCII digits count.

Key definitions: `Decimal.isInteger`, `Decimal.Bounds`, `Decimal.Bounds.check`,
`Decimal.Bounds.parse?`, `Decimal.write`.
-/
import TenBit.Text.Blank

namespace TenBit
namespace Decimal

/-- The value of a digit. -/
def digitValue (c : Char) : Nat := c.toNat - '0'.toNat

/-- One or more digits. -/
def isDigits (t : Text) : Bool := !t.isEmpty && t.all Char.isDigit

/-- An optional sign, then one or more digits. -/
def isInteger : Text → Bool
  | '-' :: t => isDigits t
  | '+' :: t => isDigits t
  | t => isDigits t

/-- The least and the greatest number of an integer type. -/
structure Bounds where
  least : Int
  greatest : Int
deriving DecidableEq, Repr

namespace Bounds

/-- The bounds of integers of 8 bits. -/
def int8 : Bounds := ⟨-128, 127⟩

/-- The bounds of integers of 32 bits. -/
def int32 : Bounds := ⟨-2147483648, 2147483647⟩

/-- The bounds of natural numbers of 64 bits. -/
def nat64 : Bounds := ⟨0, 18446744073709551615⟩

/-- A number, if it is within the bounds. -/
def check (b : Bounds) (n : Int) : Option Int :=
  if b.least ≤ n ∧ n ≤ b.greatest then some n else none

/-- The number with one digit more, which takes it further away from zero. Neither
the product nor the sum may leave the bounds. -/
def append? (b : Bounds) (negative : Bool) (n : Int) (c : Char) : Option Int := do
  let n ← b.check (n * 10)
  b.check (if negative then n - digitValue c else n + digitValue c)

/-- The number of one or more digits. -/
def digits? (b : Bounds) (negative : Bool) (t : Text) : Option Int :=
  if isDigits t then t.foldlM (b.append? negative) 0 else none

/-- The number of a text. Without numbers below zero there is no minus sign. -/
def parse? (b : Bounds) : Text → Option Int
  | '-' :: t => if b.least < 0 then b.digits? true t else none
  | '+' :: t => b.digits? false t
  | t => b.digits? false t

end Bounds

/-- The shortest numeral of a natural number. -/
def write (n : Nat) : Text := Nat.toDigits 10 n

end Decimal
end TenBit
