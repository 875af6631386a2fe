/-
# The program

Runs the command line on the files of the system. Outputs are staged as hidden
files beside their places.
-/
import TenBit.Job.Command

namespace TenBit
namespace Host

/-- What was in the way of a step of the system. -/
def obstacle : IO.Error → Obstacle
  | .noFileOrDirectory .. => .missing
  | e => .other (toString e)

/-- A step of the system, with what was in its way if it failed. -/
def guarded {α : Type} (step : IO α) : IO (Except Obstacle α) := do
  try
    return .ok (← step)
  catch e =>
    return .error (obstacle e)

/-- The source in an open file. -/
def readOpen (h : IO.FS.Handle) : IO Input := do
  match ← guarded h.readBinToEnd with
  | .ok bytes => return { bytes := bytes.toList }
  | .error o => return { bytes := [], failure := some o.message }

/-- A new path, from the root, for a file that waits in a folder. -/
def freshPath (folder : Text) : IO String := do
  let now ← IO.monoNanosNow
  let here ← IO.currentDir
  let full := if Path.isFull folder then folder else here.toString.toList ++ '/' :: folder
  return String.ofList (Path.waiting full now)

/-- Moves a file, or removes it if it cannot be moved. -/
def moveOrRemove (file path : String) : IO (Except Obstacle Unit) := do
  let moved ← guarded (IO.FS.rename file path)
  if let .error _ := moved then
    let _ ← guarded (IO.FS.removeFile file)
  return moved

instance : Storage IO where
  Staged := String
  read path := do
    match ← guarded (IO.FS.Handle.mk (String.ofList path) .read) with
    | .ok h => return .ok (← readOpen h)
    | .error o => return .error o
  stage folder contents := guarded do
    let file ← freshPath folder
    IO.FS.writeFile file (String.ofList contents)
    return file
  publish file path := moveOrRemove file (String.ofList path)
  withdraw file := do
    let _ ← guarded (IO.FS.removeFile file)
  remove path := guarded (IO.FS.removeFile (String.ofList path))
  print text := guarded do
    let out ← IO.getStdout
    out.putStr (String.ofList text)
    out.flush

end Host
end TenBit

/-- Assembles the files named by the arguments. -/
def main (args : List String) : IO UInt32 := do
  let outcome ← TenBit.Command.run (args.map String.toList)
  IO.eprint (String.ofList outcome.complaint)
  return outcome.exit.toUInt32
