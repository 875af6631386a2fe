/-
# Paths

A path is text with slashes between its parts. The file name is the last part,
where slashes at the end, and dots alone between slashes, do not count; a path
that ends in `.` or `..` has none. The extension is what follows the last dot
of the file name, unless that dot comes first. Names and paths can only have
so many bytes.

Key definitions: `Path.cut?`, `Path.extension?`, `Path.setExtension`,
`Path.withExtension`, `Path.source`, `Path.fits`, `Path.nameFits`, `OutputPaths`.
-/
import TenBit.Text.Decimal
import TenBit.Text.Utf8

namespace TenBit
namespace Path

/-- A path, last character first, without the slashes and lone dots at its
end. -/
def dropEnd : Text → Text
  | '/' :: t => dropEnd t
  | '.' :: '/' :: t => dropEnd t
  | t => t

/-- The path up to its last part, and that part. -/
def cut (p : Text) : Text × Text :=
  let r := dropEnd p.reverse
  ((r.dropWhile fun c => c != '/').reverse, (r.takeWhile fun c => c != '/').reverse)

/-- The path up to its file name, and the file name. -/
def cut? (p : Text) : Option (Text × Text) :=
  let (folder, name) := cut p
  if name = [] ∨ name = ['.'] ∨ name = ['.', '.'] then none else some (folder, name)

/-- A file name without its extension, and the extension. -/
def splitName (name : Text) : Text × Option Text :=
  match name.reverse.dropWhile fun c => c != '.' with
  | [] => (name, none)
  | [_] => (name, none)
  | _ :: stem => (stem.reverse, some (name.reverse.takeWhile fun c => c != '.').reverse)

/-- The extension of a path. -/
def extension? (p : Text) : Option Text := (cut? p).bind fun c => (splitName c.2).2

/-- The path with another extension for its file name, if it has one. What
stood behind the file name is dropped. -/
def setExtension (p extension : Text) : Text :=
  match cut? p with
  | none => p
  | some (folder, name) => folder ++ (splitName name).1 ++ '.' :: extension

/-- The path that is as long as `p` without the extension it has. -/
def shorten (p : Text) : Text :=
  match extension? p with
  | none => p
  | some e => p.take (p.length - e.length)

/-- The path with another extension in place of the one it has: it is made
shorter by the length of its extension first. -/
def withExtension (p extension : Text) : Text := setExtension (shorten p) extension

/-- The source file that is meant by a path: one without an extension gets
`as`. -/
def source (p : Text) : Text :=
  match extension? p with
  | some _ => p
  | none => withExtension p "as".toList

/-- The folder a path is in. -/
def folder (p : Text) : Text :=
  match dropEnd (cut p).1.reverse with
  | [] => if (cut p).1 = [] then ['.'] else ['/']
  | t => t.reverse

/-- The parts of a path between its slashes; some may be empty. -/
def parts : Text → List Text
  | [] => [[]]
  | c :: cs =>
    let ps := parts cs
    if c = '/' then [] :: ps
    else
      match ps with
      | [] => [[c]]
      | p :: ps => (c :: p) :: ps

/-- The greatest number of bytes of a name in a path. -/
def longestName : Nat := 255

/-- The greatest number of bytes of a path. -/
def longest : Nat := 4095

/-- A name is short enough to stand in a path. -/
def nameFits (name : Text) : Bool := Utf8.size name ≤ longestName

/-- A path is short enough to be followed. -/
def fits (p : Text) : Bool := Utf8.size p ≤ longest

/-- A path leads from the root and not from the folder one is in. -/
def isFull (p : Text) : Bool := p.head? == some '/'

/-- The number of bytes of a path when it is written from the root, where the
path of the folder one is in has `hereSize` bytes. -/
def fullSize (hereSize : Nat) (p : Text) : Nat :=
  if isFull p then Utf8.size p else hereSize + 1 + Utf8.size p

/-- The path in a folder at which a file waits to be moved to its place: its
name is a dot and the last nine digits of `n`. -/
def waiting (folder : Text) (n : Nat) : Text :=
  folder ++ '/' :: '.' :: (Decimal.write (1000000000 + n % 1000000000)).drop 1

end Path

/-- The files that are written for a source. -/
structure OutputPaths where
  expanded : Text
  object : Text
  entries : Text
  externals : Text
deriving DecidableEq, Repr

/-- The files of a source differ from it in the extension. -/
def OutputPaths.ofSource (p : Text) : OutputPaths where
  expanded := Path.withExtension p "am".toList
  object := Path.withExtension p "ob".toList
  entries := Path.withExtension p "ent".toList
  externals := Path.withExtension p "ext".toList

end TenBit
