/-
# Encoding

The second pass walks over the lines again, now that every symbol has its
address. It writes the words of instructions and data, notes where external
names are used, marks entries, and keeps a listing. Lines that cannot be read
were reported before and are passed over.

Key definitions: `Encoder`, `Encoder.emit`, `Encoder.step`, `Encoder.run`,
`Encoder.ofLayout`.
-/
import TenBit.Memory.Image
import TenBit.Memory.Layout
import TenBit.Memory.Slot
import TenBit.Output.Listing

namespace TenBit

/-- What the second pass has made so far. -/
structure Encoder where
  symbols : SymbolTable
  image : Image := {}
  rows : List Listing.Row := []
  report : Report
deriving DecidableEq

namespace Encoder

/-- The state with one more problem. -/
def record (e : Encoder) (f : Fault) (line : Nat) : Encoder :=
  { e with report := e.report.record f line }

/-- The state with one more word of code. -/
def push (e : Encoder) (w : Word) : Encoder :=
  { e with image := { e.image with code := e.image.code ++ [w] } }

/-- The state with one more use of an external name. -/
def refer (e : Encoder) (name : Text) (address : Address) : Encoder :=
  { e with image := { e.image with references := e.image.references ++ [⟨name, address⟩] } }

/-- The state with a word for the address of a name. A name that is not defined
leaves a zero in its place. -/
def pushAddress (e : Encoder) (name : Text) (line : Nat) : Encoder :=
  match e.image.nextAddress? with
  | none => e.record .memoryOverflow line
  | some here =>
    match e.symbols.get? name with
    | none => (e.record .undefinedSymbol line).push (.address .zero .absolute)
    | some s =>
      if s.kind = .external then (e.refer name here).push (.address .zero .external)
      else e.push (.address s.address .relocatable)

/-- The state with a slot filled. -/
def pushSlot (line : Nat) (e : Encoder) : Slot → Encoder
  | .word w => e.push w
  | .reference name => e.pushAddress name line

/-- The state with the slots filled in order. -/
def emit (e : Encoder) (line : Nat) (slots : List Slot) : Encoder :=
  slots.foldl (pushSlot line) e

/-- The state with one more row in the listing. -/
def list (e : Encoder) (row : Listing.Row) : Encoder := { e with rows := e.rows ++ [row] }

/-- The state with the words of an instruction. -/
def addCode (e : Encoder) (line : SourceLine) (i : Instruction) : Encoder :=
  match e.image.nextAddress? with
  | none => e.record .memoryOverflow line.origin
  | some address =>
    let e' := e.emit line.origin i.slots
    e'.list ⟨.code address, e'.image.code.drop e.image.code.length, line.text⟩

/-- The state with the cells of a directive. -/
def addData (e : Encoder) (line : SourceLine) (d : Directive) : Encoder :=
  let words := d.dataCells.map Word.data
  let image := { e.image with data := e.image.data ++ words }
  { e with image }.list ⟨.data e.image.data.length, words, line.text⟩

/-- The state with a name marked as an entry. -/
def addEntry (e : Encoder) (line : Nat) (name : Text) : Encoder :=
  match e.symbols.markEntry name with
  | .ok symbols => { e with symbols }
  | .error (.isExternal _) => e.record .entryExternal line
  | .error _ => e.record .entryUndefined line

/-- The state after a statement. -/
def place (e : Encoder) (line : SourceLine) : Statement → Encoder
  | .blank => e
  | .comment => e
  | .directive _ (.entry name) => e.addEntry line.origin name
  | .directive _ (.external _) => e
  | .directive _ d => e.addData line d
  | .instruction _ i => e.addCode line i

/-- The state after a line. -/
def step (macros : MacroTable) (e : Encoder) (line : SourceLine) : Encoder :=
  match Statement.read macros line.text with
  | .error _ => e
  | .ok s => e.place line s

/-- The state after some lines, up to the first fatal problem. -/
def run (macros : MacroTable) : Encoder → List SourceLine → Encoder
  | e, [] => e
  | e, line :: lines => if e.report.isFatal then e else run macros (step macros e line) lines

/-- The words are as many as the layout counted. -/
def agrees (e : Encoder) (l : Layout) : Bool :=
  e.image.code.length == l.codeSize && e.image.data.length == l.dataSize

/-- The two passes are compared, unless the work was stopped. -/
def close (l : Layout) (e : Encoder) : Encoder :=
  if !e.report.isFatal && !e.agrees l then e.record .passesDisagree 0 else e

/-- The encoding of a program whose layout is known. -/
def ofLayout (macros : MacroTable) (l : Layout) (lines : List SourceLine) : Encoder :=
  close l (run macros { symbols := l.symbols, report := l.report.enter .secondPass } lines)

/-- The listing of an encoded program. -/
def listing (l : Layout) (e : Encoder) : Listing := ⟨l.codeEnd, e.rows⟩

end Encoder
end TenBit
