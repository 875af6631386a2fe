/-
# What can be wrong with a source

Every problem has one cause. Most are errors: the source is read to its end so
that all of them are found, and nothing is produced. A fatal one stops the work
at once. Notes never keep a program from being assembled.

Key definitions: `Severity`, `Fault`, `Fault.severity`, `Fault.message`.
-/

namespace TenBit

/-- How much a problem matters. -/
inductive Severity
  /-- Worth saying; the program is assembled all the same. -/
  | note
  /-- A defect of the source. -/
  | error
  /-- The work cannot go on. -/
  | fatal
deriving DecidableEq, Repr

/-- The wording of a severity. -/
def Severity.name : Severity → String
  | .note => "note"
  | .error => "error"
  | .fatal => "fatal error"

/-- The causes of a problem. -/
inductive Fault
  /-- The source could not be read to its end. -/
  | sourceUnreadable
  /-- A macro definition ends that never began. -/
  | strayMacroEnd
  /-- The program has more words than there are cells. -/
  | memoryOverflow
  /-- The two passes found different sizes. -/
  | passesDisagree
  /-- A line has too many characters. -/
  | lineTooLong
  /-- A macro definition has no name. -/
  | macroNameMissing
  /-- A macro name has too many characters. -/
  | macroNameTooLong
  /-- A macro name starts with something other than a letter. -/
  | macroNameStart
  /-- A macro name holds something other than letters, digits, underscores. -/
  | macroNameCharacter
  /-- A macro name means something else already. -/
  | macroNameReserved
  /-- There is a macro of this name. -/
  | macroRedefined
  /-- More text on the opening line of a definition. -/
  | textAfterMacroName
  /-- More text on the closing line of a definition. -/
  | textAfterMacroEnd
  /-- More text after the name in a macro call. -/
  | textAfterMacroCall
  /-- A macro definition that never ends. -/
  | macroUnterminated
  /-- A labelled call of a macro that brings its own label. -/
  | macroLabelConflict
  /-- A colon with no name before it. -/
  | labelEmpty
  /-- A label has too many characters. -/
  | labelTooLong
  /-- A label starts with something other than a letter. -/
  | labelStart
  /-- A label holds something other than letters and digits. -/
  | labelCharacter
  /-- A label means something else already. -/
  | labelReserved
  /-- There is a macro of the label's name. -/
  | labelNamesMacro
  /-- Text directly after the colon of a label. -/
  | textAfterColon
  /-- A label with nothing behind it. -/
  | labelAlone
  /-- No directive has this name. -/
  | unknownDirective
  /-- No operation has this name. -/
  | unknownOperation
  /-- A list that starts with a comma. -/
  | leadingComma
  /-- A list that ends with a comma. -/
  | trailingComma
  /-- Two commas with no item between them. -/
  | doubledComma
  /-- Two items with no comma between them. -/
  | missingComma
  /-- A directive that needs a value and has none. -/
  | valuesMissing
  /-- A value that is no integer. -/
  | valueNotInteger
  /-- A value that no cell holds. -/
  | valueOutOfRange
  /-- Matrix dimensions that make no matrix. -/
  | badDimensions
  /-- More values than the matrix has cells. -/
  | tooManyValues
  /-- A string directive without a string. -/
  | stringMissing
  /-- A string without its opening quote. -/
  | openingQuoteMissing
  /-- A string without its closing quote. -/
  | closingQuoteMissing
  /-- A string with a character that cannot be printed. -/
  | stringUnprintable
  /-- More text after the closing quote. -/
  | textAfterString
  /-- A directive that needs a name and has none. -/
  | nameMissing
  /-- More text after the name in a directive. -/
  | textAfterName
  /-- Fewer operands than the operation takes. -/
  | operandMissing
  /-- More operands than the operation takes. -/
  | tooManyOperands
  /-- More than one operand where one is taken. -/
  | secondOperand
  /-- An immediate operand that is no integer. -/
  | immediateNotInteger
  /-- An immediate operand that does not fit in eight bits. -/
  | immediateOutOfRange
  /-- The shape of a register, but no register. -/
  | noSuchRegister
  /-- Brackets that do not make a matrix operand. -/
  | malformedElement
  /-- A row or column that is no register. -/
  | elementRegister
  /-- An operand of no known shape. -/
  | badOperand
  /-- A mode the source operand may not use. -/
  | sourceMode
  /-- A mode the destination operand may not use. -/
  | destinationMode
  /-- A name defined twice. -/
  | duplicateSymbol
  /-- A name used and not defined. -/
  | undefinedSymbol
  /-- An entry that is not defined. -/
  | entryUndefined
  /-- An entry that is external. -/
  | entryExternal
  /-- A label in front of an entry declaration. -/
  | entryLabelIgnored
  /-- A label in front of an external declaration. -/
  | externalLabelIgnored
deriving DecidableEq, Repr

namespace Fault

/-- How much a cause matters. -/
def severity : Fault → Severity
  | sourceUnreadable | strayMacroEnd | memoryOverflow | passesDisagree => .fatal
  | entryLabelIgnored | externalLabelIgnored => .note
  | _ => .error

/-- The cause stops the work. -/
def isFatal (f : Fault) : Bool := f.severity == .fatal

/-- The wording of a cause. -/
def message : Fault → String
  | sourceUnreadable => "failed to read the source file"
  | strayMacroEnd => "'mcroend' without a preceding 'mcro'"
  | memoryOverflow => "program does not fit into memory"
  | passesDisagree => "internal error: passes disagree about the program size"
  | lineTooLong => "line is longer than 80 characters"
  | macroNameMissing => "macro definition has no name"
  | macroNameTooLong => "macro name is longer than 30 characters"
  | macroNameStart => "macro name must start with a letter"
  | macroNameCharacter => "macro name may contain only letters, digits and underscores"
  | macroNameReserved => "macro name is a reserved word"
  | macroRedefined => "a macro with this name is already defined"
  | textAfterMacroName => "unexpected text after the macro name (macros take no parameters)"
  | textAfterMacroEnd => "unexpected text after 'mcroend'"
  | textAfterMacroCall => "unexpected text after the macro name in a macro call"
  | macroUnterminated => "macro definition has no 'mcroend'"
  | macroLabelConflict =>
    "macro call has a label, but the first line of the macro body already has one"
  | labelEmpty => "label has no name before the colon"
  | labelTooLong => "label is longer than 30 characters"
  | labelStart => "label must start with a letter"
  | labelCharacter => "label may contain only letters and digits"
  | labelReserved => "label is a reserved word"
  | labelNamesMacro => "label has the same name as a macro"
  | textAfterColon => "expected white space after the label's colon"
  | labelAlone => "label is not followed by an instruction or directive"
  | unknownDirective => "unknown directive"
  | unknownOperation => "unknown operation"
  | leadingComma => "unexpected comma before the first item"
  | trailingComma => "unexpected comma after the last item"
  | doubledComma => "two commas in a row"
  | missingComma => "items must be separated by commas"
  | valuesMissing => "directive requires at least one value"
  | valueNotInteger => "value is not an integer"
  | valueOutOfRange => "value does not fit in a 10-bit word (-512 to 511)"
  | badDimensions => "matrix dimensions must look like [rows][columns] with positive sizes"
  | tooManyValues => "more values than the matrix has cells"
  | stringMissing => "'.string' requires a quoted string"
  | openingQuoteMissing => "string must start with '\"'"
  | closingQuoteMissing => "string must end with '\"'"
  | stringUnprintable => "string contains a non-printable character"
  | textAfterString => "unexpected text after the closing '\"'"
  | nameMissing => "directive requires a label name"
  | textAfterName => "unexpected text after the label name"
  | operandMissing => "too few operands"
  | tooManyOperands => "too many operands"
  | secondOperand => "this operation takes a single operand"
  | immediateNotInteger => "immediate operand is not an integer"
  | immediateOutOfRange => "immediate operand does not fit in 8 bits (-128 to 127)"
  | noSuchRegister => "no such register (registers are r0 to r7)"
  | malformedElement => "matrix operand must look like NAME[rX][rY]"
  | elementRegister => "matrix row and column must be registers"
  | badOperand => "operand is not a register, immediate, label or matrix element"
  | sourceMode => "addressing mode not allowed for this operation's source operand"
  | destinationMode => "addressing mode not allowed for this operation's destination operand"
  | duplicateSymbol => "symbol is already defined"
  | undefinedSymbol => "symbol is not defined"
  | entryUndefined => "'.entry' names a symbol which is not defined"
  | entryExternal => "'.entry' names a symbol declared '.extern'"
  | entryLabelIgnored => "label in front of '.entry' is ignored"
  | externalLabelIgnored => "label in front of '.extern' is ignored"

end Fault
end TenBit
