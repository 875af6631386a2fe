/-
# Memory layout

The first pass walks over the lines and gives every label an address. Code
starts at the base of the program and grows with each instruction; data is
counted from zero, and its symbols are moved behind the code when all the code
is known. Code and data together have to fit into memory after every line.

Key definitions: `Layout`, `Layout.place`, `Layout.step`, `Layout.run`,
`Layout.ofLines`.
-/
import TenBit.Report.Basic
import TenBit.Source.Line
import TenBit.Statement.Read
import TenBit.Symbol.Table

namespace TenBit

/-- What the first pass knows: the symbols, and how many words of code and of
data there are. -/
structure Layout where
  symbols : SymbolTable
  codeSize : Nat := 0
  dataSize : Nat := 0
  report : Report
deriving DecidableEq

namespace Layout

/-- The address of the next word of code. -/
def codeEnd (l : Layout) : Nat := codeBase + l.codeSize

/-- Code and data fit into memory. -/
def fits (l : Layout) : Bool := l.codeEnd + l.dataSize ≤ memorySize

/-- The layout with one more problem. -/
def record (l : Layout) (f : Fault) (line : Nat) : Layout :=
  { l with report := l.report.record f line }

/-- The layout with one more problem, if the condition holds. -/
def recordIf (l : Layout) (b : Bool) (f : Fault) (line : Nat) : Layout :=
  { l with report := l.report.recordIf b f line }

/-- The layout with one more symbol. The first definition of a name stands. -/
def define (l : Layout) (name : Text) (kind : SymbolKind) (address line : Nat) : Layout :=
  match Address.ofNat? address with
  | none => l.record .memoryOverflow line
  | some address =>
    match l.symbols.insert { name, address, kind, line } with
    | .ok symbols => { l with symbols }
    | .error _ => l.record .duplicateSymbol line

/-- The layout with a symbol for the label of a line, if it has one. -/
def defineLabel (l : Layout) (label : Option Text) (kind : SymbolKind) (address line : Nat) :
    Layout :=
  match label with
  | none => l
  | some name => l.define name kind address line

/-- The name is known to be external. -/
def isExternal (l : Layout) (name : Text) : Bool :=
  (l.symbols.get? name).any fun s => s.kind == .external

/-- The layout with an external symbol. Declaring it again does no harm. -/
def declareExternal (l : Layout) (name : Text) (line : Nat) : Layout :=
  if l.isExternal name then l else l.define name .external 0 line

/-- The layout with cells for a directive behind those of the data area. -/
def addData (l : Layout) (label : Option Text) (kind : SymbolKind) (d : Directive) (line : Nat) :
    Layout :=
  let l := l.defineLabel label kind l.dataSize line
  { l with dataSize := l.dataSize + d.dataSize }

/-- The layout with words for an instruction behind those of the code area. -/
def addCode (l : Layout) (label : Option Text) (i : Instruction) (line : Nat) : Layout :=
  let l := l.defineLabel label .code l.codeEnd line
  { l with codeSize := l.codeSize + i.wordCount }

/-- The layout after a statement. -/
def place (l : Layout) (line : Nat) : Statement → Layout
  | .blank => l
  | .comment => l
  | .directive label (.entry _) => l.recordIf label.isSome .entryLabelIgnored line
  | .directive label (.external name) =>
    (l.recordIf label.isSome .externalLabelIgnored line).declareExternal name line
  | .directive label (.matrix d vs) => l.addData label .matrix (.matrix d vs) line
  | .directive label (.data vs) => l.addData label .data (.data vs) line
  | .directive label (.string t) => l.addData label .data (.string t) line
  | .instruction label i => l.addCode label i line

/-- The layout after a line. A line that cannot be read takes no memory. -/
def step (macros : MacroTable) (l : Layout) (line : SourceLine) : Layout :=
  match Statement.read macros line.text with
  | .error f => l.record f line.origin
  | .ok s =>
    let l := l.place line.origin s
    l.recordIf (!l.fits) .memoryOverflow line.origin

/-- The layout after some lines, up to the first fatal problem. -/
def run (macros : MacroTable) : Layout → List SourceLine → Layout
  | l, [] => l
  | l, line :: lines => if l.report.isFatal then l else run macros (step macros l line) lines

/-- The data area is moved behind the code, unless the work was stopped. -/
def close (l : Layout) : Layout :=
  if l.report.isFatal then l
  else
    match l.symbols.relocate l.codeEnd with
    | (symbols, none) => { l with symbols }
    | (symbols, some _) => { l with symbols }.record .memoryOverflow 0

/-- The layout of a program. -/
def ofLines (macros : MacroTable) (report : Report) (lines : List SourceLine) : Layout :=
  (run macros { symbols := .empty, report := report.enter .firstPass } lines).close

end Layout
end TenBit
