import Cppward.Analysis.Analyse
import Cppward.Build.Load
import Cppward.Emit.Module

namespace Cppward.Build

open Analysis

/-!
# Sessions

Several modules are compiled in one session when macros are defined: the program itself, and a
module for the body of each macro.  These modules share statements, so what the compilation of one
of them changes is seen by the next.
-/

structure Session where
  disk : Disk := {}
  /-- The number of the last fresh name. -/
  names : Nat := 0
  warnings : List String := []
  /-- The program of the module that was compiled last. -/
  program : Program := {}
  /-- The nodes that compilations have changed, by their labels, oldest changes first. -/
  changes : List (Array Node) := []

namespace Session

/-- Does something with the files. -/
def onDisk {α : Type} (a : Action Disk α) : Action Session α :=
  a.onPart Session.disk fun disk s => { s with disk }

/-- A result that may be a failure. -/
def lift {α : Type} (r : Except Failure α) : Action Session α :=
  match r with
  | .ok a => return a
  | .error e => throw e

/-- Does something that makes fresh names. -/
def naming {α : Type} (a : Naming α) : Action Session α := do
  let (x, names) ← lift (a.run (← get).names)
  modify fun s => { s with names }
  return x

/-- A node as the session has left it. -/
def current (n : Node) : Action Session Node := do
  return (← get).changes.foldl (fun n table => n.settle table) n

def record (table : Array Node) : Action Session Unit :=
  modify fun s => { s with changes := s.changes ++ [table] }

/-- A label that no node of the session has, nor any node of a tree. -/
def freeLabel (n : Node) : Action Session Nat := do
  return max (← get).program.nodes.size n.nextLabel

/-- Compiles a module whose macros are expanded, and writes the headers generated with it. -/
def compile (module : Node) : Action Session Emit.Output := do
  let s ← get
  let report := analyseAfter s.program module
  set { s with warnings := s.warnings ++ report.warnings }
  let p ← lift report.result
  let output ← lift (Emit.emitModule p s.names)
  modify fun s =>
    { s with
      names := output.names
      program := output.program
      disk := output.headers.foldl (fun d (path, code) => d.write path code) s.disk }
  return output

end Session

end Cppward.Build
