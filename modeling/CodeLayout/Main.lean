import CodeLayout.Launch.Program
import Std.Time.Zoned

/-!
# The executable

Gathers what a run depends on from the machine it runs on, and carries out what
the run asks for.
-/

namespace CodeLayout.Executable

/-- The number of the error that reading a directory as a file leads to. -/
def directoryCode : UInt32 := 21

/-- Take whatever stands at a path over into a tree. -/
def withPath (files : FileTree) (path : String) : IO FileTree := do
  match ← (IO.FS.readBinFile path).toBaseIO with
  | .ok content =>
    let files := (files.createDirectories (FileTree.parent path)).toOption.getD files
    return (files.writeBytes path content).toOption.getD files
  | .error (.inappropriateType _ code _) =>
    if code = directoryCode then
      return (files.createDirectories path).toOption.getD files
    else return files
  | .error _ => return files

/-- Take over what stands at a path, and the directory that a file there would
be in. -/
def withPlace (files : FileTree) (path : String) : IO FileTree := do
  withPath (← withPath files (FileTree.parent path)) path

/-- The present moment by the local clock. -/
def now : IO Moment := do
  let reading ← Std.Time.PlainDateTime.now
  let nanoseconds := reading.toWallTime.toNanoseconds.val
  return ⟨nanoseconds / 1000000000, (nanoseconds % 1000000000).toNat⟩

/-- Heaps start at multiples of the address space of a word, so that they never
meet. -/
def base (p : Partition) : Nat :=
  (p.id + 1) * Size.wordLimit

/-- What a run with some arguments depends on. -/
def surroundings (arguments : List String) : IO Surroundings := do
  let environment ← Program.variableNames.filterMapM fun name => do
    return (← IO.getEnv name).map fun value => (name, value)
  let home ← IO.getEnv "HOME"
  let configHome := Config.directory home (← IO.getEnv "XDG_CONFIG_HOME")
  let w : Surroundings :=
    { environment, home, configHome, files := FileTree.empty, host := .ofBase base, now := ← now }
  let named := (Program.read w arguments).1.bind CommandLine.config
  let files ← (named.toList ++ Program.configPlaces w).foldlM withPlace w.files
  let w := { w with files }
  let files ← (Program.orderFile? w arguments).toList.foldlM withPlace w.files
  return { w with files }

/-- Show what a run lets its surroundings see. -/
def act : Action → IO Unit
  | .print line => IO.println line
  | .log .stdout line => IO.println line.display
  | .log .stderr line => IO.eprintln line.display
  | .complain line => IO.eprintln line
  | .pause seconds => IO.sleep (UInt32.ofNat (1000 * seconds))

/-- Carry a change of a file over to the machine. -/
def store (before after : FileTree) (path : String) : IO Unit := do
  match (before.readBytes path).toOption, (after.readBytes path).toOption with
  | some _, none => IO.FS.removeFile path
  | old, some content =>
    if old.all (· != content) then IO.FS.writeBinFile path content
  | none, none => return

end CodeLayout.Executable

open CodeLayout in
/-- Run the program on the arguments of the command line. -/
def main (arguments : List String) : IO UInt32 := do
  let arguments := "jboltctl" :: arguments
  let w ← Executable.surroundings arguments
  let outcome := Program.run w arguments
  outcome.actions.forM Executable.act
  for path in (Program.orderFile? w arguments).toList do
    Executable.store w.files outcome.files path
  if outcome.exit = 2 then IO.eprintln CommandLine.usage
  return UInt32.ofNat outcome.exit
