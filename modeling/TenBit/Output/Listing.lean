/-
# Listings

A listing shows every statement that takes memory: the address of its first
word in decimal and in letters, its words, three to a row, and its text. The
symbol table follows.

Key definitions: `Listing`, `Listing.Row`, `Listing.address?`, `Listing.text`.
-/
import TenBit.Machine.Word
import TenBit.Symbol.Table

namespace TenBit

/-- Where a statement is placed. A data statement is known by its distance from
the start of the data area. -/
inductive Listing.Place
  | code (address : Address)
  | data (offset : Nat)
deriving DecidableEq, Repr

/-- A statement with its words. -/
structure Listing.Row where
  place : Listing.Place
  words : List Word
  text : Text
deriving DecidableEq, Repr

/-- The statements of a program, and the address where its data area starts. -/
structure Listing where
  dataStart : Nat := 0
  rows : List Listing.Row := []
deriving DecidableEq, Repr

namespace Listing

/-- The address of the first word of a row. -/
def address? (l : Listing) (r : Row) : Option Address :=
  match r.place with
  | .code a => some a
  | .data n => Address.ofNat? (l.dataStart + n)

/-- The number of words in a printed row. -/
def columns : Nat := 3

/-- The width of a printed word with the space before it. -/
def columnWidth : Nat := 6

/-- The address of a row as it is printed. -/
def addressText : Option Address → Text
  | some a => (Decimal.write a.toNat).leftpad 3 ' ' ++ ' ' :: a.letters
  | none => "???".toList.rightpad 8 ' '

/-- The words of a row as they are printed; `n` have been printed before. -/
def wordsText : Nat → List Word → Text
  | _, [] => []
  | n, w :: ws =>
    (if 0 < n ∧ n % columns = 0 then '\n' :: List.replicate 8 ' ' else []) ++
      ' ' :: w.cell.letters ++ wordsText (n + 1) ws

/-- How many words stand in the last printed row of `n` words. -/
def inLastRow (n : Nat) : Nat := if n = 0 then 0 else (n - 1) % columns + 1

/-- A row as it is printed. -/
def rowText (l : Listing) (r : Row) : Text :=
  addressText (l.address? r) ++ wordsText 0 r.words ++
    List.replicate ((columns - inLastRow r.words.length) * columnWidth) ' ' ++
    ' ' :: ' ' :: Text.trim r.text ++ ['\n']

/-- The printed listing, with the symbol table behind it. -/
def text (l : Listing) (symbols : SymbolTable) : Text :=
  l.rows.flatMap l.rowText ++ "\nSymbol Table:\n".toList ++ symbols.text

end Listing
end TenBit
