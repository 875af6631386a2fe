/-
# Text and white space

A source is read as lists of characters. White space is the Unicode property
of that name, and a word is a run of characters without it. Comma lists have
separators of their own, fewer than these.

Key definitions: `Text`, `Text.isBlank`, `Text.trim`, `Text.nextWord?`.
-/

namespace TenBit

/-- Text is a list of characters. -/
abbrev Text := List Char

namespace Text

/-- The code points of white space, as closed ranges in ascending order. -/
def blankRanges : List (Nat × Nat) :=
  [(0x09, 0x0D), (0x20, 0x20), (0x85, 0x85), (0xA0, 0xA0), (0x1680, 0x1680), (0x2000, 0x200A),
    (0x2028, 0x2029), (0x202F, 0x202F), (0x205F, 0x205F), (0x3000, 0x3000)]

/-- White space, by the Unicode property. -/
def isBlank (c : Char) : Bool :=
  blankRanges.any fun r => r.1 ≤ c.toNat && c.toNat ≤ r.2

/-- The text without the white space at its start. -/
def trimStart (t : Text) : Text := t.dropWhile isBlank

/-- The text without the white space at its end. -/
def trimEnd (t : Text) : Text := (t.reverse.dropWhile isBlank).reverse

/-- The text without the white space around it. -/
def trim (t : Text) : Text := trimEnd (trimStart t)

/-- The next word and the text behind it, or nothing if only white space is
left. -/
def nextWord? (t : Text) : Option (Text × Text) :=
  match trimStart t with
  | [] => none
  | s => some (s.takeWhile fun c => !isBlank c, s.dropWhile fun c => !isBlank c)

/-- There is no word left. -/
def isBlankText (t : Text) : Bool := t.all isBlank

end Text
end TenBit
