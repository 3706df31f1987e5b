import Cppward.Build.Command

/-!
# The command line

Runs the command on the files of the machine.  The command itself works on files as values: a run
says which files it has looked for, and is repeated with those that are there until it has all of
them.  Then the files it has written are stored.

The code that is generated is not compiled further from here; the command lines for that are shown.
-/

namespace Cppward

/-- The file at a path, if it can be read. -/
def readFileAt (path : String) : IO (Option Build.File) := do
  try
    return some { path, text := ← IO.FS.readFile path, time := 0 }
  catch _ =>
    return none

/-- Runs the command, with the files that it looks for. -/
partial def runWithFiles (env : Build.Environment) (args : List String) (disk : Build.Disk) :
    IO Build.Run := do
  let run := Build.Command.run env args disk
  let found ← run.disk.asked.eraseDups.filterMapM readFileAt
  if found.isEmpty then
    return run
  runWithFiles env args { disk with files := disk.files ++ found }

/-- Stores the files that a run has written. -/
def storeFiles (disk : Build.Disk) : IO Unit :=
  (disk.files.filter (0 < ·.time)).forM fun f => IO.FS.writeFile f.path f.text

/-- Shows how a run has ended, and gives the code to end with. -/
def showEnding (run : Build.Run) : IO UInt32 := do
  IO.eprint run.errors
  match run.result with
  | .inl (.exit code) => return (code % 256).toNat.toUInt32
  | .inl .finished => return 0
  | .inl (.failed e) =>
    IO.eprintln e.message
    return 1
  | .inr plan =>
    IO.println plan.compile
    plan.execute.forM fun words => IO.println (" ".intercalate words)
    return 0

end Cppward

def main (args : List String) : IO UInt32 := do
  let package := (← IO.appDir).toString
  let env : Cppward.Build.Environment := {
    package
    headers := [package ++ "/headers"]
    compiler := ← IO.getEnv "CXX"
    flags := ← IO.getEnv "CXXFLAGS" }
  let directory := (← IO.currentDir).toString
  let run ← Cppward.runWithFiles env args { directory }
  Cppward.storeFiles run.disk
  Cppward.showEnding run
