/-
# Reading a statement

One line of text either says something or has one fault, the first that is met
from left to right. Reading depends on nothing but the text and the names of the
macros, so both passes read the same statement in a line.

Key definitions: `Statement.read`, `Statement.readDirective`,
`Statement.readInstruction`, `Operand.read`.
-/
import TenBit.Machine.Address
import TenBit.Statement.Basic
import TenBit.Statement.Items
import TenBit.Statement.Name
import TenBit.Text.Decimal

namespace TenBit

/-- The number of a data item. It has to fit 32 bits before it can fit a cell. -/
def Cell.read (t : Text) : Except Fault Cell :=
  if !Decimal.isInteger t then .error .valueNotInteger
  else
    match Decimal.Bounds.int32.parse? t with
    | none => .error .valueOutOfRange
    | some n =>
      match Cell.ofInt n with
      | .ok c => .ok c
      | .error _ => .error .valueOutOfRange

/-- A square bracket. -/
def isBracket (c : Char) : Bool := c == '[' || c == ']'

/-- What stands between an opening bracket and the bracket that closes it, and
the text behind; no other bracket may stand between. -/
def bracketed? : Text → Option (Text × Text)
  | '[' :: t =>
    match t.dropWhile fun c => !isBracket c with
    | ']' :: rest => some (t.takeWhile fun c => !isBracket c, rest)
    | _ => none
  | _ => none

namespace Operand

/-- The number of an immediate operand, without its mark. -/
def readImmediate (t : Text) : Except Fault (BitVec 8) :=
  if !Decimal.isInteger t then .error .immediateNotInteger
  else
    match Decimal.Bounds.int8.parse? t with
    | none => .error .immediateOutOfRange
    | some n => .ok (BitVec.ofInt 8 n)

/-- A register between brackets. -/
def readIndex (t : Text) : Except Fault Register :=
  match Register.ofName? (Text.trim t) with
  | some r => .ok r
  | none => .error .elementRegister

/-- The name and the two bracketed texts of a matrix operand. -/
def elementParts? (t : Text) : Option (Text × Text × Text) := do
  let name := t.takeWhile fun c => !isBracket c
  let (row, t) ← bracketed? (t.dropWhile fun c => !isBracket c)
  let (column, t) ← bracketed? t
  if name.isEmpty || !t.isEmpty then none else some (name, row, column)

/-- An element of a matrix. -/
def readElement (macros : MacroTable) (t : Text) : Except Fault Operand :=
  match elementParts? t with
  | none => .error .malformedElement
  | some (name, row, column) =>
    match Name.checkLabel macros name with
    | .error _ => .error .malformedElement
    | .ok () => do
      let row ← readIndex row
      let column ← readIndex column
      return .matrix name row column

/-- The shape of a register: `r` and digits. -/
def looksLikeRegister : Text → Bool
  | 'r' :: ds => !ds.isEmpty && ds.all Char.isDigit
  | _ => false

/-- A name used as an operand. -/
def readName (macros : MacroTable) (t : Text) : Except Fault Operand :=
  match Name.checkLabel macros t with
  | .ok () => .ok (.direct t)
  | .error _ => .error (if looksLikeRegister t then .noSuchRegister else .badOperand)

/-- An operand without the mark of immediate ones. -/
def readPlain (macros : MacroTable) (t : Text) : Except Fault Operand :=
  match Register.ofName? t with
  | some r => .ok (.register r)
  | none => if t.any isBracket then readElement macros t else readName macros t

/-- An operand. -/
def read (macros : MacroTable) : Text → Except Fault Operand
  | '#' :: t => (readImmediate t).map .immediate
  | t => readPlain macros t

end Operand

/-- An operand together with its text. -/
def WrittenOperand.read (macros : MacroTable) (t : Text) : Except Fault WrittenOperand :=
  (Operand.read macros t).map fun o => ⟨t, o⟩

namespace Statement

/-- The items of a list, or the fault of the list. -/
def readItems (t : Text) : Except Fault (List Text) :=
  match Items.split t with
  | .ok items => .ok items
  | .error e => .error e.fault

/-- A list of numbers, which may be empty. -/
def readValues (t : Text) : Except Fault (List Cell) := do
  let items ← readItems t
  items.mapM Cell.read

/-- A list of numbers that has at least one. -/
def readSomeValues (t : Text) : Except Fault (List Cell) := do
  let values ← readValues t
  if values.isEmpty then .error .valuesMissing else .ok values

/-- One dimension of a matrix. -/
def readDimension (t : Text) : Except Fault Nat :=
  match Decimal.Bounds.nat64.parse? (Text.trim t) with
  | some n => if 0 < n then .ok n.toNat else .error .badDimensions
  | none => .error .badDimensions

/-- The two bracketed texts in front of the values of a matrix, and the text of
the values. -/
def dimensionParts? (t : Text) : Option (Text × Text × Text) := do
  let (rows, t) ← bracketed? t
  let (columns, t) ← bracketed? (Text.trimStart t)
  return (rows, columns, t)

/-- The dimensions of a matrix and the text of its values. -/
def readDimensions (t : Text) : Except Fault (Dimensions × Text) :=
  match dimensionParts? t with
  | none => .error .badDimensions
  | some (rows, columns, rest) => do
    let rows ← readDimension rows
    let columns ← readDimension columns
    match Decimal.Bounds.nat64.check (rows * columns) with
    | some cells =>
      if cells ≤ memorySize then .ok (⟨rows, columns⟩, rest) else .error .badDimensions
    | none => .error .badDimensions

/-- A matrix, with or without dimensions. -/
def readMatrix (t : Text) : Except Fault Directive :=
  if t.head? = some '[' then do
    let (dimensions, rest) ← readDimensions t
    let values ← readValues rest
    if dimensions.cells < values.length then .error .tooManyValues
    else .ok (.matrix (some dimensions) values)
  else do
    let values ← readSomeValues t
    return .matrix none values

/-- A character a string may hold: a space or a visible ASCII character. -/
def isPrintable (c : Char) : Bool := 0x20 ≤ c.toNat && c.toNat ≤ 0x7E

/-- The text up to the last quote and the text behind it, if there is a quote. -/
def cutAtLastQuote? (t : Text) : Option (Text × Text) :=
  match t.reverse.dropWhile fun c => c != '"' with
  | [] => none
  | _ :: content => some (content.reverse, (t.reverse.takeWhile fun c => c != '"').reverse)

/-- A quoted string. It ends at the last quote. -/
def readString : Text → Except Fault Text
  | [] => .error .stringMissing
  | '"' :: t =>
    match cutAtLastQuote? t with
    | none => .error .closingQuoteMissing
    | some (content, trailing) =>
      if !Text.isBlankText trailing then .error .textAfterString
      else if !content.all isPrintable then .error .stringUnprintable
      else .ok content
  | _ => .error .openingQuoteMissing

/-- The name a directive is about. -/
def readDeclaredName (macros : MacroTable) (t : Text) : Except Fault Text :=
  match Text.nextWord? t with
  | none => .error .nameMissing
  | some (name, rest) => do
    Name.checkLabel macros name
    if Text.isBlankText rest then .ok name else .error .textAfterName

/-- A directive, from its name without the dot and the text behind. -/
def readDirective (macros : MacroTable) (name t : Text) : Except Fault Directive :=
  if name = "data".toList then (readSomeValues t).map .data
  else if name = "string".toList then (readString t).map .string
  else if name = "mat".toList then readMatrix t
  else if name = "entry".toList then (readDeclaredName macros t).map .entry
  else if name = "extern".toList then (readDeclaredName macros t).map .external
  else .error .unknownDirective

/-- The operands have modes that the operation takes. -/
def checkModes (i : Instruction) : Except Fault Instruction :=
  if !(i.source.all fun w => i.opcode.acceptsSource w.operand.mode) then .error .sourceMode
  else if !(i.destination.all fun w => i.opcode.acceptsDestination w.operand.mode) then
    .error .destinationMode
  else .ok i

/-- The number of operands is the one the operation takes. -/
def checkCount (opcode : Opcode) (items : List Text) : Except Fault Unit :=
  if items.length < opcode.operandCount then .error .operandMissing
  else if opcode.operandCount < items.length then
    .error (if opcode.operandCount = 1 then .secondOperand else .tooManyOperands)
  else .ok ()

/-- The instruction with the given operands; the last one is the destination. -/
def withOperands (opcode : Opcode) (operands : List WrittenOperand) : Instruction :=
  { opcode, source := operands.dropLast.getLast?, destination := operands.getLast? }

/-- An instruction, from its operation and the text of its operands. -/
def readInstruction (macros : MacroTable) (opcode : Opcode) (t : Text) :
    Except Fault Instruction := do
  let items ← readItems t
  checkCount opcode items
  let operands ← items.mapM (WrittenOperand.read macros)
  checkModes (withOperands opcode operands)

/-- A directive or an instruction, after its label if it has one. -/
def readBody (macros : MacroTable) (label : Option Text) (t : Text) : Except Fault Statement :=
  match Text.nextWord? t with
  | none => .error .labelAlone
  | some (word, rest) =>
    match Opcode.ofMnemonic? word with
    | some opcode =>
      (readInstruction macros opcode (Text.trim rest)).map (.instruction label)
    | none =>
      match word with
      | '.' :: name => (readDirective macros name (Text.trim rest)).map (.directive label)
      | _ => .error .unknownOperation

/-- The name of a label, from a word with a colon in it. -/
def readLabel (macros : MacroTable) (word : Text) : Except Fault Text :=
  let name := word.takeWhile fun c => c != ':'
  if (word.dropWhile fun c => c != ':') = [':'] then do
    Name.checkLabel macros name
    return name
  else .error .textAfterColon

/-- The character that starts a comment. -/
def commentMark : Char := ';'

/-- A line without a statement: only white space, or a comment. -/
def isSilent (t : Text) : Bool :=
  match Text.trimStart t with
  | [] => true
  | c :: _ => c == commentMark

/-- A line that is neither blank nor a comment. -/
def readSpoken (macros : MacroTable) (t : Text) : Except Fault Statement :=
  match Text.nextWord? t with
  | none => .ok .blank
  | some (word, rest) =>
    if word.contains ':' then do
      let name ← readLabel macros word
      readBody macros (some name) rest
    else readBody macros none t

/-- What a line says, or its first fault. -/
def read (macros : MacroTable) (t : Text) : Except Fault Statement :=
  match Text.trim t with
  | [] => .ok .blank
  | c :: cs => if c == commentMark then .ok .comment else readSpoken macros (c :: cs)

end Statement
end TenBit
