/-
# Memory images

A finished program is a run of code words, a run of data words behind them, and
the places where names of other programs are used. Its object file starts with
the two sizes and lists every cell with its address.

Key definitions: `Reference`, `Image`, `Image.cells`, `Image.objectText`,
`Image.externalsText?`.
-/
import TenBit.Machine.Word

namespace TenBit

/-- The place of a word that waits for the address of an external name. -/
structure Reference where
  name : Text
  address : Address
deriving DecidableEq, Repr

/-- The words of a program. -/
structure Image where
  code : List Word := []
  data : List Word := []
  /-- In the order of the words that need them. -/
  references : List Reference := []
deriving DecidableEq, Repr

namespace Image

/-- There is neither code nor data. -/
def isEmpty (i : Image) : Bool := i.code.isEmpty && i.data.isEmpty

/-- The address of the next word of code, if there is a cell for it. -/
def nextAddress? (i : Image) : Option Address := Address.base.advance? i.code.length

/-- The addresses a program can use, in ascending order. -/
def addresses : List Address :=
  (List.range (memorySize - codeBase)).filterMap fun n => Address.base.advance? n

/-- The cells of a program: the code and behind it the data, as far as memory
goes. -/
def cells (i : Image) : List (Address × Word) := addresses.zip (i.code ++ i.data)

/-- Both sizes have a numeral in the heading of an object file. -/
def sizesFit (i : Image) : Bool :=
  Quaternary.fits 4 i.code.length && Quaternary.fits 4 i.data.length

/-- One cell in an object file. -/
def cellLine (c : Address × Word) : Text :=
  c.1.letters ++ ' ' :: c.2.cell.letters ++ ['\n']

/-- The heading of an object file: the sizes of code and data. -/
def heading (i : Image) : Text :=
  Quaternary.letters 4 i.code.length ++ ' ' :: Quaternary.letters 4 i.data.length ++ ['\n']

/-- The text of the object file. -/
def objectText (i : Image) : Text := i.heading ++ i.cells.flatMap cellLine

/-- The text of the object file, if its heading can tell the sizes. -/
def objectText? (i : Image) : Option Text := if i.sizesFit then some i.objectText else none

/-- What is said of an image whose sizes have no numeral. -/
def oversizeMessage : String := "program size was checked against the memory size"

/-- The text of the externals file, if external names are used. -/
def externalsText? (i : Image) : Option Text :=
  match i.references with
  | [] => none
  | rs => some (rs.flatMap fun r => r.name ++ ' ' :: r.address.letters ++ ['\n'])

end Image
end TenBit
