import Cppward.Action
import Cppward.Build.Path

namespace Cppward.Build

/-!
# Files

A build reads and writes files.  What it sees of them is a value: the files with their texts and
times, and the directory that paths are taken from.
-/

variable (d : Disk) (path : String)

/-- A file.  A later time means that it was written later. -/
structure File where
  path : String
  text : String
  time : Nat
  deriving DecidableEq, Repr

/-- The files that a build sees.  All paths in it start at the root. -/
structure Disk where
  /-- The directory that other paths are taken from. -/
  directory : String := "/"
  files : List File := []
  /-- The time of the next file that is written. -/
  clock : Nat := 1
  /-- The paths that were looked for in vain, latest first. -/
  asked : List String := []
  deriving Repr

namespace Disk

/-- A path as it is kept. -/
def resolve : String := Path.resolve d.directory path

def find? : Option File :=
  d.files.find? fun f => f.path == d.resolve path

def write (path text : String) : Disk :=
  let path := d.resolve path
  { d with
    files := d.files.filter (·.path != path) ++ [{ path, text, time := d.clock }]
    clock := d.clock + 1 }

def remove : Disk :=
  { d with files := d.files.filter (·.path != d.resolve path) }

/-- Looks for a file, and remembers that it was looked for. -/
def lookFor : Action Disk (Option File) := do
  let d ← get
  match d.find? path with
  | some file => return some file
  | none =>
    set { d with asked := d.resolve path :: d.asked }
    return none

/-- The file at a path that must be there. -/
def fetch : Action Disk File := do
  match ← lookFor path with
  | some file => return file
  | none => throw .unforeseen

end Disk

/-- The text of a file as it is read: all line endings are newlines. -/
def File.content (f : File) : List Char := Text.readNewlines f.text.toList

end Cppward.Build
