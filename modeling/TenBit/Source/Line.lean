/-
# Reading a source

A source is a run of bytes that ends, or that fails to go on. Its lines end at
line feeds; a carriage return right before a line feed belongs to the ending. A
last line without an ending counts too, unless reading failed in it. Lines are
numbered from one, each is decoded by itself, and one with too many characters
is only reported as such.

Key definitions: `Input`, `Source.pieces`, `Source.Content`, `Source.lines`,
`SourceLine`.
-/
import TenBit.Text.Utf8

namespace TenBit

/-- The bytes of a source, and why no more could be read if reading failed. -/
structure Input where
  bytes : List UInt8
  failure : Option String := none
deriving DecidableEq, Repr

/-- A line of a program, and the line of the source it comes from. -/
structure SourceLine where
  origin : Nat
  text : Text
deriving DecidableEq, Repr

namespace Source

/-- The most characters a line of a source may have. -/
def maxLength : Nat := 80

/-- The last number a line can have. -/
def lastNumber : Nat := 4294967295

/-- The number of the line after line `n`. -/
def nextNumber (n : Nat) : Nat := min (n + 1) lastNumber

/-- The pieces that end at `stop`, without it, and what is left after the last
of them. -/
def pieces {α : Type} [DecidableEq α] (stop : α) : List α → List (List α) × List α
  | [] => ([], [])
  | x :: xs =>
    let r := pieces stop xs
    if x = stop then ([] :: r.1, r.2)
    else
      match r.1 with
      | [] => ([], x :: r.2)
      | p :: ps => ((x :: p) :: ps, r.2)

/-- The piece without a carriage return at its end. -/
def dropReturn (bs : List UInt8) : List UInt8 :=
  if bs.getLast? = some 0x0D then bs.dropLast else bs

/-- What there is to read at a line. -/
inductive Content
  | text (t : Text)
  /-- The line has too many characters. -/
  | tooLong
  /-- Reading failed. -/
  | unreadable (reason : String)
deriving DecidableEq, Repr

/-- How a line that is too long is refused. -/
def tooLongMessage : String := s!"line is longer than {maxLength} characters"

/-- The content of a line of at most `limit` characters. -/
def content (limit : Nat) (bs : List UInt8) : Content :=
  let t := Utf8.decode bs
  if limit < t.length then .tooLong else .text t

/-- What comes after the last line feed. -/
def ending (limit : Nat) (rest : List UInt8) : Option String → List Content
  | some reason => [.unreadable reason]
  | none => if rest.isEmpty then [] else [content limit rest]

/-- The contents of the lines of a source. -/
def contents (limit : Nat) (input : Input) : List Content :=
  let r := pieces 0x0A input.bytes
  r.1.map (fun p => content limit (dropReturn p)) ++ ending limit r.2 input.failure

/-- The numbers of the lines that follow line `n`. -/
def number (n : Nat) : List Content → List (Nat × Content)
  | [] => []
  | c :: cs => (nextNumber n, c) :: number (nextNumber n) cs

/-- The lines of a source with their numbers. -/
def lines (limit : Nat) (input : Input) : List (Nat × Content) :=
  number 0 (contents limit input)

end Source
end TenBit
