/-
# Names

A label is a letter followed by letters and digits, a macro name may hold
underscores as well. Neither may be too long, or mean something else: an
operation, a register, a directive, the two words of a macro definition, or a
macro of the table.

Key definitions: `Name.isReserved`, `Name.checkLabel`, `Name.checkMacro`.
-/
import TenBit.Machine.Opcode
import TenBit.Machine.Register
import TenBit.Macro.Table
import TenBit.Report.Fault

namespace TenBit
namespace Name

/-- The word that opens a macro definition. -/
def macroStart : Text := "mcro".toList

/-- The word that closes a macro definition. -/
def macroEnd : Text := "mcroend".toList

/-- The names of directives, without their dot. -/
def directives : List Text :=
  ["data".toList, "string".toList, "mat".toList, "entry".toList, "extern".toList]

/-- The most characters a name may have. -/
def maxLength : Nat := 30

/-- The word means something to the assembler. -/
def isReserved (t : Text) : Bool :=
  (Opcode.ofMnemonic? t).isSome || (Register.ofName? t).isSome ||
    t == macroStart || t == macroEnd || directives.contains t

/-- The characters of a label after the first. -/
def isLabelCharacter (c : Char) : Bool := c.isAlphanum

/-- The characters of a macro name after the first. -/
def isMacroCharacter (c : Char) : Bool := c.isAlphanum || c == '_'

/-- What is wrong with a label, if anything. -/
def checkLabel (macros : MacroTable) : Text → Except Fault Unit
  | [] => .error .labelEmpty
  | c :: cs =>
    if !c.isAlpha then .error .labelStart
    else if !cs.all isLabelCharacter then .error .labelCharacter
    else if maxLength < (c :: cs).length then .error .labelTooLong
    else if isReserved (c :: cs) then .error .labelReserved
    else if macros.contains (c :: cs) then .error .labelNamesMacro
    else .ok ()

/-- What is wrong with the name of a new macro, if anything. -/
def checkMacro (macros : MacroTable) : Text → Except Fault Unit
  | [] => .error .macroNameMissing
  | c :: cs =>
    if !c.isAlpha then .error .macroNameStart
    else if !cs.all isMacroCharacter then .error .macroNameCharacter
    else if maxLength < (c :: cs).length then .error .macroNameTooLong
    else if isReserved (c :: cs) then .error .macroNameReserved
    else if macros.contains (c :: cs) then .error .macroRedefined
    else .ok ()

end Name
end TenBit
