/-
# Comma lists

The values of a directive and the operands of an instruction are items divided
by commas. Separators around items are skipped; they are spaces, tabs, carriage
returns, form feeds and vertical tabs, and no other white space. Whatever is
neither a comma nor a separator belongs to an item. A malformed list is refused
for its leftmost violation.

Key definitions: `Items.Token`, `Items.tokens`, `Items.collect`, `Items.split`.
-/
import TenBit.Report.Fault
import TenBit.Text.Blank

namespace TenBit
namespace Items

/-- The characters that are skipped between items and commas. -/
def isSeparator (c : Char) : Bool :=
  c == ' ' || c == '\t' || c == '\r' || c == '\x0c' || c == '\x0b'

/-- The characters an item is made of. -/
def isItemCharacter (c : Char) : Bool := c != ',' && !isSeparator c

/-- What a list is made of. -/
inductive Token
  | comma
  | item (text : Text)
deriving DecidableEq, Repr

/-- The character before this text belongs to the item this text starts with. -/
def startsItem : Text → Bool
  | [] => false
  | c :: _ => isItemCharacter c

/-- The commas and items of a text. -/
def tokens : Text → List Token
  | [] => []
  | c :: cs =>
    if c = ',' then .comma :: tokens cs
    else if isSeparator c then tokens cs
    else
      match startsItem cs, tokens cs with
      | true, .item t :: ts => .item (c :: t) :: ts
      | _, ts => .item [c] :: ts

/-- Why a text is not a list. -/
inductive Malformed
  /-- A comma before the first item. -/
  | leadingComma
  /-- A comma after the last item. -/
  | trailingComma
  /-- A comma after a comma. -/
  | doubledComma
  /-- An item after an item. -/
  | missingComma
deriving DecidableEq, Repr

/-- The fault of a malformed list. -/
def Malformed.fault : Malformed → Fault
  | .leadingComma => .leadingComma
  | .trailingComma => .trailingComma
  | .doubledComma => .doubledComma
  | .missingComma => .missingComma

/-- What a list may go on with. -/
inductive Expect
  /-- The first item, or nothing. -/
  | start
  /-- An item, after a comma. -/
  | item
  /-- A comma or nothing, after an item. -/
  | comma
deriving DecidableEq, Repr

/-- The items of the tokens, if they alternate with commas as expected. -/
def collect : Expect → List Token → Except Malformed (List Text)
  | .start, [] => .ok []
  | .item, [] => .error .trailingComma
  | .comma, [] => .ok []
  | .start, .comma :: _ => .error .leadingComma
  | .item, .comma :: _ => .error .doubledComma
  | .comma, .comma :: ts => collect .item ts
  | .comma, .item _ :: _ => .error .missingComma
  | .start, .item t :: ts => (collect .comma ts).map (t :: ·)
  | .item, .item t :: ts => (collect .comma ts).map (t :: ·)

/-- The items of a text. -/
def split (t : Text) : Except Malformed (List Text) := collect .start (tokens t)

end Items
end TenBit
