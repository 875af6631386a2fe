/-
# Linkage tags

The two low bits of an instruction word tell a loader what to do with it:
leave it alone, move it with the program, or fill in an external address.

Key definitions: `Linkage`, `Linkage.ofNat?`.
-/

namespace TenBit

/-- What a loader does with a word. -/
inductive Linkage
  /-- The word stays as it is. -/
  | absolute
  /-- The word waits for the address of an external symbol. -/
  | external
  /-- The word holds an address that moves with the program. -/
  | relocatable
deriving DecidableEq, Repr

namespace Linkage

/-- The code of a tag. -/
def code : Linkage → BitVec 2
  | .absolute => 0
  | .external => 1
  | .relocatable => 2

/-- The tag with a given code; three is no tag. -/
def ofNat? : Nat → Option Linkage
  | 0 => some .absolute
  | 1 => some .external
  | 2 => some .relocatable
  | _ => none

/-- The name of a tag. -/
def name : Linkage → String
  | .absolute => "Absolute"
  | .external => "External"
  | .relocatable => "Relocatable"

end Linkage
end TenBit
