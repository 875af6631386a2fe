/-
# Base-4 letters

Object files write every number with the letters a, b, c and d, two bits to a
letter, most significant first, in a fixed number of letters. A value has a
numeral of width `w` exactly if it is below `4 ^ w`; reading takes one to
sixteen letters.

Key definitions: `Quaternary.letter`, `Quaternary.letters`,
`Quaternary.encode?`, `Quaternary.decode`.
-/
import TenBit.Text.Blank

namespace TenBit
namespace Quaternary

/-- The letter of a digit; only the two low bits of `d` count. -/
def letter (d : Nat) : Char :=
  match d % 4 with
  | 0 => 'a'
  | 1 => 'b'
  | 2 => 'c'
  | _ => 'd'

/-- The digit of a letter. -/
def digit? : Char → Option Nat
  | 'a' => some 0
  | 'b' => some 1
  | 'c' => some 2
  | 'd' => some 3
  | _ => none

/-- The `w` low digits of `v`, most significant first. -/
def letters : (w v : Nat) → Text
  | 0, _ => []
  | w + 1, v => letters w (v / 4) ++ [letter v]

/-- Nothing of `v` is left over beyond `w` digits. -/
def fits : (w v : Nat) → Bool
  | 0, v => v == 0
  | w + 1, v => v == 0 || fits w (v / 4)

/-- The numeral of width `w`, if the value has one. -/
def encode? (w v : Nat) : Option Text :=
  if fits w v then some (letters w v) else none

/-- Why a text is not a numeral. -/
inductive Malformed
  /-- A character other than the four letters. -/
  | badLetter (c : Char)
  /-- More letters than a 32-bit value has. -/
  | tooLong (length : Nat)
  /-- No letter at all. -/
  | empty
deriving DecidableEq, Repr

/-- The wording of a malformed numeral. -/
def Malformed.message : Malformed → String
  | .badLetter c => s!"'{c}' is not a base-4 digit (expected one of a, b, c, d)"
  | .tooLong n => s!"{n} base-4 digits will not fit in the target width"
  | .empty => "empty base-4 string"

/-- The value of some letters that follow digits worth `v`. -/
def valueFrom : (v : Nat) → Text → Except Malformed Nat
  | v, [] => .ok v
  | v, c :: cs =>
    match digit? c with
    | some d => valueFrom (4 * v + d) cs
    | none => .error (.badLetter c)

/-- The longest numeral that is read. -/
def maxLength : Nat := 16

/-- The value of a numeral. -/
def decode (t : Text) : Except Malformed Nat :=
  if t.isEmpty then .error .empty
  else if t.length > maxLength then .error (.tooLong t.length)
  else valueFrom 0 t

end Quaternary
end TenBit
