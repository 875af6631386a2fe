/-
# Decoding UTF-8

Bytes are decoded one at a time. Between two bytes the decoder remembers the
character it is in the middle of: its bits so far, the continuation bytes still
due, and the range the next of them has to lie in. A byte outside that range
ends the character as malformed, which gives one replacement character, and
starts afresh. So every maximal start of a character that cannot be continued
is replaced by one character.

Key definitions: `Utf8.step`, `Utf8.decodeFrom`, `Utf8.decode`, `Utf8.encode`,
`Utf8.size`.
-/
import TenBit.Text.Blank

namespace TenBit
namespace Utf8

/-- What stands for malformed bytes. -/
def replacement : Char := '\ufffd'

/-- A character begun and not yet complete. -/
structure Pending where
  /-- The bits read so far. -/
  bits : Nat
  /-- How many continuation bytes are due after the next one. -/
  more : Nat
  /-- The least byte that may come next. -/
  least : UInt8
  /-- The greatest byte that may come next. -/
  greatest : UInt8
deriving DecidableEq, Repr

/-- A byte met between two characters: what it yields, and what it begins. -/
def start (b : UInt8) : Text × Option Pending :=
  if b < 0x80 then ([Char.ofNat b.toNat], none)
  else if b < 0xC2 then ([replacement], none)
  else if b < 0xE0 then ([], some ⟨b.toNat % 0x20, 0, 0x80, 0xBF⟩)
  else if b = 0xE0 then ([], some ⟨0, 1, 0xA0, 0xBF⟩)
  else if b = 0xED then ([], some ⟨0xD, 1, 0x80, 0x9F⟩)
  else if b < 0xF0 then ([], some ⟨b.toNat % 0x10, 1, 0x80, 0xBF⟩)
  else if b = 0xF0 then ([], some ⟨0, 2, 0x90, 0xBF⟩)
  else if b < 0xF4 then ([], some ⟨b.toNat % 0x08, 2, 0x80, 0xBF⟩)
  else if b = 0xF4 then ([], some ⟨4, 2, 0x80, 0x8F⟩)
  else ([replacement], none)

/-- One byte: what it yields, and the character it leaves incomplete. -/
def step (s : Option Pending) (b : UInt8) : Text × Option Pending :=
  match s with
  | none => start b
  | some p =>
    if p.least ≤ b ∧ b ≤ p.greatest then
      let bits := p.bits * 0x40 + b.toNat % 0x40
      match p.more with
      | 0 => ([Char.ofNat bits], none)
      | n + 1 => ([], some ⟨bits, n, 0x80, 0xBF⟩)
    else
      let r := start b
      (replacement :: r.1, r.2)

/-- The characters of some bytes, in the middle of a character or not. -/
def decodeFrom : Option Pending → List UInt8 → Text
  | none, [] => []
  | some _, [] => [replacement]
  | s, b :: bs =>
    let r := step s b
    r.1 ++ decodeFrom r.2 bs

/-- The characters of some bytes. -/
def decode (bs : List UInt8) : Text := decodeFrom none bs

/-- The bytes of some characters. -/
def encode (t : Text) : List UInt8 := t.flatMap String.utf8EncodeChar

/-- The number of bytes of a text. -/
def size (t : Text) : Nat := (encode t).length

end Utf8
end TenBit
