import Arbor.CommandLine.Execution
import Std.Time.DateTime.Timestamp

/-!
# The program

The command line program around `CommandLine.run`: it grants the wishes of the host, carries out the
effects in order, and ends with the exit code. A run that ends in a wish is repeated from the start
with the wish granted; effects that were carried out already are not repeated.
-/

namespace Arbor.Main

open CommandLine

/-- What the operating system has at a path. -/
def explore (path : String) : IO DiskEntry := do
  try
    let bytes ← IO.FS.readBinFile path
    pure (.file (String.fromUTF8? bytes) bytes.size)
  catch
    | .noFileOrDirectory .. => pure .absent
    | _ => pure .directory

/-- The names in a directory. -/
def listNames (path : String) : IO (List String) := do
  let place ← IO.FS.realPath path
  pure ((← place.readDir).toList.map (·.fileName))

/-- The host with the names in a directory known. What is known of them already stays. -/
def learnNames (h : LocalHost) (path : String) : IO LocalHost := do
  let mut disk := h.disk
  for name in ← listNames path do
    let place := Path.join path name
    unless disk.entries.contains place do
      disk := disk.put place (← explore place)
  pure { h with disk := { disk with listed := path :: disk.listed } }

/-- The host with a wish granted. -/
def grant (h : LocalHost) : Wish → IO LocalHost
  | .path path => do pure { h with disk := h.disk.put path (← explore path) }
  | .listing path => learnNames h path
  | .input => do pure { h with input? := some (← (← IO.getStdin).readToEnd) }
  | .variable name => do
    pure { h with environment := (name, ← IO.getEnv name) :: h.environment }

/-- Carries out an effect. -/
def carryOut : Effect → IO Unit
  | .output text => do
    let out ← IO.getStdout
    out.putStr text
    out.flush
  | .errorOutput text => IO.eprint text
  | .fileWritten path text => IO.FS.writeFile path text
  | .directoryMade path => IO.FS.createDir path
  | .slept ms => IO.sleep ms.toUInt32

/-- The bound on the work of the first try. -/
def firstFuel : Nat := 1000000000

/-- Runs the program until it ends. The first `done` effects were carried out already. -/
partial def loop (words : List String) (fuel done : Nat) (h : LocalHost) : IO UInt8 := do
  let after := CommandLine.run fuel words h
  (after.effects.reverse.drop done).forM carryOut
  let done := max done after.effects.length
  match after.exitCode?, after.wish? with
  | some code, _ => pure (UInt8.ofNat (exitStatus code))
  | none, some w => do loop words fuel done (← grant h w)
  | none, none => loop words (fuel * 1000) done h

end Arbor.Main

def main (words : List String) : IO UInt32 := do
  let cwd ← IO.currentDir
  let now ← Std.Time.Timestamp.now
  let h : Arbor.LocalHost :=
    { disk := ⟨Arbor.Dict.ofList [("/", .directory)], false, []⟩
      cwd := cwd.toString
      argv := []
      input? := none
      environmentKnown := false
      startMs := now.toMillisecondsSinceUnixEpoch.toInt }
  pure (← Arbor.Main.loop words Arbor.Main.firstFuel 0 h).toUInt32
