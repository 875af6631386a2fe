/-
# Symbol tables

A table holds at most one symbol of each name, in ascending order of the names.
Symbols are added, marked as entries and, if they lie in the data area, moved;
none is ever taken away.

Key definitions: `Symbol`, `SymbolTable`, `SymbolTable.get?`,
`SymbolTable.insert`, `SymbolTable.markEntry`, `SymbolTable.relocate`,
`SymbolTable.entries`.
-/
import TenBit.Machine.Address
import TenBit.Order.Place
import TenBit.Text.Decimal

namespace TenBit

/-- What a symbol stands for. -/
inductive SymbolKind
  /-- The first word of an instruction. -/
  | code
  /-- The first cell of numbers or of a string. -/
  | data
  /-- The first cell of a matrix. -/
  | matrix
  /-- Something in another program; its address is zero. -/
  | external
deriving DecidableEq, Repr

/-- The symbol lies in the data area, which is placed behind the code. -/
def SymbolKind.isData : SymbolKind → Bool
  | .data | .matrix => true
  | .code | .external => false

/-- The wording of a kind. -/
def SymbolKind.name : SymbolKind → String
  | .code => "code"
  | .data => "data"
  | .matrix => "matrix"
  | .external => "extern"

/-- A name with its address, and the line that defined it. -/
structure Symbol where
  name : Text
  address : Address
  kind : SymbolKind
  entry : Bool := false
  line : Nat
deriving DecidableEq, Repr

/-- Why a symbol table refuses a step. -/
inductive SymbolError
  | duplicate (name : Text)
  | notFound (name : Text)
  | isExternal (name : Text)
  | outsideMemory (name : Text)
deriving DecidableEq, Repr

/-- The wording of a refusal. -/
def SymbolError.message : SymbolError → String
  | .duplicate n =>
    let name := String.ofList n
    s!"symbol {name} is already defined"
  | .notFound n =>
    let name := String.ofList n
    s!"symbol {name} is not defined"
  | .isExternal n =>
    let name := String.ofList n
    s!"symbol {name} is external"
  | .outsideMemory n =>
    let name := String.ofList n
    s!"symbol {name} would lie outside memory"

/-- Symbols in ascending order of their names. -/
structure SymbolTable where
  symbols : List Symbol
  ascending : Order.Ascending Text.before (symbols.map Symbol.name)

namespace SymbolTable

@[ext] theorem ext : ∀ {s t : SymbolTable}, s.symbols = t.symbols → s = t
  | ⟨_, _⟩, ⟨_, _⟩, rfl => rfl

instance : DecidableEq SymbolTable := fun s t =>
  if h : s.symbols = t.symbols then isTrue (ext h) else isFalse fun e => h (e ▸ rfl)

/-- The table without symbols. -/
def empty : SymbolTable := ⟨[], List.Pairwise.nil⟩

/-- The symbol of a name. -/
def get? (t : SymbolTable) (name : Text) : Option Symbol :=
  t.symbols.find? fun s => s.name == name

/-- The number of symbols. -/
def size (t : SymbolTable) : Nat := t.symbols.length

/-- The order of two symbols by their names. -/
def byName (a b : Symbol) : Bool := Text.before a.name b.name

theorem not_mem_names_of_get? {t : SymbolTable} {name : Text} (h : t.get? name = none) :
    name ∉ t.symbols.map Symbol.name := by
  simpa [get?, List.find?_eq_none] using h

theorem ascending_place {t : SymbolTable} {s : Symbol} (h : t.get? s.name = none) :
    Order.Ascending Text.before ((Order.place byName s t.symbols).map Symbol.name) := by
  rw [Order.map_place Symbol.name byName Text.before fun _ _ => rfl]
  exact Order.ascending_place Text.strict_before _ _ t.ascending (not_mem_names_of_get? h)

/-- The table with a new symbol; its name has to be new. -/
def insert (t : SymbolTable) (s : Symbol) : Except SymbolError SymbolTable :=
  if h : t.get? s.name = none then .ok ⟨Order.place byName s t.symbols, ascending_place h⟩
  else .error (.duplicate s.name)

/-- The symbol, marked as an entry if it has the name. -/
def marked (name : Text) (s : Symbol) : Symbol :=
  if s.name = name then { s with entry := true } else s

theorem marked_name (name : Text) (s : Symbol) : (marked name s).name = s.name := by
  unfold marked
  split <;> rfl

theorem map_marked_names (name : Text) (ss : List Symbol) :
    (ss.map (marked name)).map Symbol.name = ss.map Symbol.name := by
  simp [marked_name]

/-- The table with a symbol marked as an entry. -/
def markEntry (t : SymbolTable) (name : Text) : Except SymbolError SymbolTable :=
  match t.get? name with
  | none => .error (.notFound name)
  | some s =>
    if s.kind = .external then .error (.isExternal name)
    else .ok ⟨t.symbols.map (marked name), map_marked_names name t.symbols ▸ t.ascending⟩

/-- The symbols with those of the data area moved `offset` cells on, up to the
first that would leave memory; that one is named and ends the work. -/
def moveData (offset : Nat) : List Symbol → List Symbol × Option SymbolError
  | [] => ([], none)
  | s :: ss =>
    if s.kind.isData then
      match s.address.advance? offset with
      | some a =>
        let r := moveData offset ss
        ({ s with address := a } :: r.1, r.2)
      | none => (s :: ss, some (.outsideMemory s.name))
    else
      let r := moveData offset ss
      (s :: r.1, r.2)

theorem moveData_names (offset : Nat) :
    ∀ ss : List Symbol, (moveData offset ss).1.map Symbol.name = ss.map Symbol.name
  | [] => rfl
  | s :: ss => by
    unfold moveData
    split
    · split
      · simp [moveData_names offset ss]
      · rfl
    · simp [moveData_names offset ss]

/-- The table with the data area moved, and the symbol that could not be moved
if there is one; then the symbols before it have moved and the others not. -/
def relocate (t : SymbolTable) (offset : Nat) : SymbolTable × Option SymbolError :=
  let r := moveData offset t.symbols
  (⟨r.1, (moveData_names offset t.symbols).symm ▸ t.ascending⟩, r.2)

/-- The order of two symbols by address, then by name. -/
def byAddress (a b : Symbol) : Bool :=
  a.address.toNat < b.address.toNat ||
    (a.address.toNat == b.address.toNat && Text.before a.name b.name)

/-- The entries, in the order of their addresses. -/
def entries (t : SymbolTable) : List Symbol :=
  Order.sort byAddress (t.symbols.filter Symbol.entry)

/-- One line of the printed table. -/
def row (s : Symbol) : Text :=
  s.name.rightpad 30 ' ' ++ ' ' :: (Decimal.write s.address.toNat).leftpad 3 ' ' ++
    ' ' :: s.kind.name.toList ++ (if s.entry then " entry".toList else []) ++ ['\n']

/-- The printed table. -/
def text (t : SymbolTable) : Text := t.symbols.flatMap row

/-- The text of the entries file, if there are entries. -/
def entriesText? (t : SymbolTable) : Option Text :=
  match t.entries with
  | [] => none
  | es => some (es.flatMap fun s => s.name ++ ' ' :: s.address.letters ++ ['\n'])

end SymbolTable
end TenBit
