/-
# A disk in memory

A disk holds files and folders by their location, which is the list of names on
the way from the root. It is kept in the order of the locations, so that a folder
comes right before what it contains. One is always in some folder: paths that
start with a slash are followed part by part from the root, all others from the
folder one is in. Before a path is followed, it has to be a path at all; each
name on the way has to be short enough when its turn comes.

Key definitions: `Disk`, `Disk.get?`, `Disk.put`, `Disk.erase`, `Disk.walk`,
`Disk.locate`, `Disk.find`, `World`.
-/
import TenBit.Order.Place
import TenBit.Storage.Access
import TenBit.Storage.Path

namespace TenBit

/-- The names on the way from the root of a disk. -/
abbrev Location := List Text

/-- The order of locations by their first difference. -/
def Location.before : Location → Location → Bool := Order.lex Text.before

theorem Location.strict_before : Order.Strict Location.before := Text.strict_before.lex

/-- What is at a location. -/
inductive Node
  | file (bytes : List UInt8)
  | folder
deriving DecidableEq, Repr

/-- Files and folders in ascending order of their locations. -/
structure Disk where
  /-- The folder one is in. -/
  here : Location
  tree : List (Location × Node)
  ascending : Order.Ascending Location.before (tree.map Prod.fst)

namespace Disk

@[ext] theorem ext : ∀ {d e : Disk}, d.here = e.here → d.tree = e.tree → d = e
  | ⟨_, _, _⟩, ⟨_, _, _⟩, rfl, rfl => rfl

instance : DecidableEq Disk := fun d e =>
  if h : d.here = e.here ∧ d.tree = e.tree then isTrue (ext h.1 h.2)
  else isFalse fun he => h (he ▸ ⟨rfl, rfl⟩)

/-- What is at a location. The root is a folder. -/
def get? (d : Disk) (l : Location) : Option Node :=
  if l = [] then some .folder else (d.tree.find? fun n => n.1 == l).map Prod.snd

/-- The order of two nodes by their locations. -/
def byLocation (a b : Location × Node) : Bool := Location.before a.1 b.1

/-- The nodes at other locations. -/
def others (d : Disk) (l : Location) : List (Location × Node) :=
  d.tree.filter fun n => n.1 != l

theorem ascending_others (d : Disk) (l : Location) :
    Order.Ascending Location.before ((d.others l).map Prod.fst) :=
  List.Pairwise.sublist (List.filter_sublist.map _) d.ascending

theorem not_mem_others (d : Disk) (l : Location) : l ∉ (d.others l).map Prod.fst := by
  simp [others]

theorem ascending_put (d : Disk) (l : Location) (n : Node) :
    Order.Ascending Location.before
      ((Order.place byLocation (l, n) (d.others l)).map Prod.fst) := by
  rw [Order.map_place Prod.fst byLocation Location.before fun _ _ => rfl]
  exact Order.ascending_place Location.strict_before _ _ (d.ascending_others l)
    (d.not_mem_others l)

/-- The disk with a node at a location, in place of what was there. -/
def put (d : Disk) (l : Location) (n : Node) : Disk :=
  ⟨d.here, Order.place byLocation (l, n) (d.others l), d.ascending_put l n⟩

/-- The disk with nothing at a location. -/
def erase (d : Disk) (l : Location) : Disk := ⟨d.here, d.others l, d.ascending_others l⟩

/-- A part of a path that stays where it is. -/
def isStay (part : Text) : Bool := part == [] || part == ['.']

/-- Where some parts of a path lead. Every part but the last has to be a folder;
above the root there is the root again. -/
def walk (d : Disk) : Location → List Text → Except Obstacle Location
  | l, [] => .ok l
  | l, part :: parts =>
    match d.get? l with
    | none => .error .missing
    | some (.file _) => .error .notFolder
    | some .folder =>
      if isStay part then walk d l parts
      else if part = ['.', '.'] then walk d l.dropLast parts
      else if Path.nameFits part then walk d (l ++ [part]) parts
      else .error .tooLong

/-- The way from the root to where a path starts. -/
def start (d : Disk) (p : Text) : Location := if Path.isFull p then [] else d.here

/-- Where a path leads. -/
def locate (d : Disk) (p : Text) : Except Obstacle Location :=
  if '\x00' ∈ p then .error .holdsNul
  else if !Path.fits p then .error .tooLong
  else if p = [] then .error .missing
  else d.walk [] (d.start p ++ Path.parts p)

/-- What a path leads to. -/
def find (d : Disk) (p : Text) : Except Obstacle Node :=
  match d.locate p with
  | .error o => .error o
  | .ok l =>
    match d.get? l with
    | some n => .ok n
    | none => .error .missing

/-- The source at a path. A folder can be opened, but reading it fails. -/
def read (d : Disk) (p : Text) : Except Obstacle Input :=
  match d.find p with
  | .error o => .error o
  | .ok (.file bytes) => .ok { bytes }
  | .ok .folder => .ok { bytes := [], failure := some Obstacle.isFolder.message }

/-- The number of bytes of the path of the folder one is in, which has a slash
before each name. -/
def hereSize (d : Disk) : Nat := Utf8.size (d.here.flatMap fun name => '/' :: name)

/-- A file can be made in the folder at a path, to wait there. It is made under
its path from the root, so that this path has to be short enough. -/
def checkFolder (d : Disk) (p : Text) : Except Obstacle Unit :=
  let file := Path.waiting p 0
  if Path.longest < Path.fullSize d.hereSize file then .error .tooLong
  else (d.locate file).map fun _ => ()

/-- The path ends in a part that names no file. -/
def endsInFolder (p : Text) : Bool :=
  match (Path.parts p).getLast? with
  | none => true
  | some part => isStay part || part == ['.', '.']

/-- The disk with a file at a path, in place of the file that was there. -/
def replace (d : Disk) (p : Text) (bytes : List UInt8) : Except Obstacle Disk :=
  match d.locate p with
  | .error o => .error o
  | .ok l =>
    if endsInFolder p then .error .busy
    else
      match d.get? l with
      | some .folder => .error .isFolder
      | _ => .ok (d.put l (.file bytes))

/-- The disk without the file at a path. -/
def remove (d : Disk) (p : Text) : Except Obstacle Disk :=
  match d.locate p with
  | .error o => .error o
  | .ok l =>
    match d.get? l with
    | none => .error .missing
    | some .folder => .error .isFolder
    | some (.file _) => .ok (d.erase l)

/-- The disk with folders on the whole way to a location, where there is
nothing yet. -/
def makeFolders (d : Disk) (way : Location) : List Text → Disk
  | [] => d
  | name :: names =>
    let l := way ++ [name]
    let d := if (d.get? l).isSome then d else d.put l .folder
    makeFolders d l names

/-- The location a path names if none of its parts leads back. -/
def named (d : Disk) (p : Text) : Location :=
  d.start p ++ (Path.parts p).filter fun part => !isStay part

/-- The disk with a folder at a path, and folders on the way to it. -/
def makeFolder (d : Disk) (p : Text) : Disk := d.makeFolders [] (d.named p)

/-- The disk with a file at a path, and folders on the way to it. -/
def write (d : Disk) (p : Text) (bytes : List UInt8) : Disk :=
  (d.makeFolders [] (d.named p).dropLast).put (d.named p) (.file bytes)

/-- The disk with no files, where one is in a folder for such as are not kept. -/
def empty : Disk :=
  let here := ["tmp".toList, ".tmp000000".toList]
  makeFolders ⟨here, [], List.Pairwise.nil⟩ [] here

/-- What lies below the folder one is in, by the way from there. -/
def nodes (d : Disk) : List (Location × Node) :=
  d.tree.filterMap fun n =>
    if d.here.isPrefixOf n.1 && n.1 != d.here then some (n.1.drop d.here.length, n.2) else none

end Disk

/-- A disk, and what has been printed. -/
structure World where
  disk : Disk
  printed : Text := []
  /-- Nothing can be printed. -/
  printerFull : Bool := false
deriving DecidableEq

/-- The world with the disk that a step makes, or what is in its way. -/
def World.change (w : World) (r : Except Obstacle Disk) : Except Obstacle Unit × World :=
  match r with
  | .ok disk => (.ok (), { w with disk })
  | .error o => (.error o, w)

instance : Storage (StateM World) where
  Staged := Text
  read path := fun w => (w.disk.read path, w)
  stage folder contents := fun w => ((w.disk.checkFolder folder).map fun _ => contents, w)
  publish contents path := fun w => w.change (w.disk.replace path (Utf8.encode contents))
  withdraw _ := fun w => ((), w)
  remove path := fun w => w.change (w.disk.remove path)
  print text := fun w =>
    if w.printerFull then (.error .full, w) else (.ok (), { w with printed := w.printed ++ text })

end TenBit
