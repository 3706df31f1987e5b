import Cppward.Build.Disk
import Cppward.Cache.Value
import Cppward.Source.Read

namespace Cppward.Build

/-!
# Loading modules

The tree of a file is kept beside it in a cache, and is read from there when the cache is newer
than the file.  Modules that a file includes are looked for in several directories.
-/

/-- How modules are found. -/
structure Search where
  /-- The directories that are searched, in order. -/
  directories : List String
  /-- Every file includes the standard modules. -/
  standard : Bool
  deriving Repr

/-- The names of the standard modules. -/
def standardModules : List String :=
  ["listcomp", "boundscheck", "convenience", "append_to_pushback"].map ("ceto_private_" ++ ·)

/-- A module that first includes the standard modules. -/
def includeStandard (module : Node) : Node :=
  let includes := standardModules.map fun name =>
    Node.ofCall (Node.ident "include") [Node.ident name]
  { module with args := includes ++ module.args }

def cacheEnding : String := ".donotedit.danger_passed_to_python_eval.cetorepr"

/-- The tree in a cache, if there is one that is newer than its file and can be read. -/
def readCache (file : File) (cache : String) : Action Disk (Option Node) := do
  match ← Disk.lookFor cache with
  | none => return none
  | some entry =>
    if entry.time ≤ file.time then
      return none
    match Cache.Entry.read entry.content with
    | .unusable => return none
    | .wrong => throw .unforeseen
    | .module n => return some n

/-- The tree of a file, its includes left as they are. -/
def readFile (standard : Bool) (path cache : String) : Action Disk Node := do
  let file ← Disk.fetch path
  match ← readCache file cache with
  | some module => return module
  | none =>
    match Source.readModule (String.ofList file.content) with
    | .error e => throw e
    | .ok module =>
      let module := if standard then includeStandard module else module
      modify (·.write cache (module.constructorText Style.cache))
      return module

/-- The first of some directories that holds a file. -/
def findDirectory (name : String) : List String → Action Disk (Option String)
  | [] => return none
  | d :: ds => do
    match ← Disk.lookFor (Path.join d name) with
    | some _ => return some d
    | none => findDirectory name ds

/-- The state of loading: the files, and the names of the modules included so far. -/
structure Loading where
  disk : Disk
  included : List String := []

def Loading.lift {α : Type} (a : Action Disk α) : Action Loading α :=
  a.onPart Loading.disk fun disk l => { l with disk }

/-- The module with a name, with the files that belong to it.  There is none if the module has been
    included before.  `expand` puts the includes of a module in place. -/
def loadModule (search : Option Search) (expand : Node → Action Loading Node) (name : String) :
    Action Loading (Option (Header × List Node)) := do
  if (← get).included.contains name then
    return none
  modify fun l => { l with included := name :: l.included }
  match search with
  | none => throw .unforeseen
  | some s =>
    match ← Loading.lift (findDirectory (name ++ ".cth") s.directories) with
    | none => throw (.source .includeMissing)
    | some d =>
      let source := Path.join d (name ++ ".cth")
      let generated := Path.join d (name ++ ".donotedit.autogenerated.h")
      let cache := Path.join d (name ++ "cth" ++ cacheEnding)
      let module ← expand (← Loading.lift (readFile s.standard source cache))
      return some ({ source, generated }, module.args)

/-- Puts the includes of a module in place, down to depth `depth`. -/
def expandModule (search : Option Search) : (depth : Nat) → Node → Action Loading Node
  | 0, _ => throw .unforeseen
  | depth + 1, module => do
    let load := loadModule search (expandModule search depth)
    return { module with args := ← Source.expandIncludes load module.args }

/-- How deep includes go: no file is included twice. -/
def Disk.includeDepth (d : Disk) : Nat := d.files.length + 2

/-- Puts the includes of a module in place, where none has been included yet. -/
def loadIncludes (search : Option Search) (module : Node) : Action Disk Node := do
  let disk ← get
  let (result, l) := (expandModule search disk.includeDepth module).perform { disk }
  set l.disk
  match result with
  | .ok module => return module
  | .error e => throw e

/-- The tree of a main file with its includes in place. -/
def loadFile (search : Option Search) (path : String) : Action Disk Node := do
  let cache := Path.join (Path.directory path) (Path.fileName path ++ cacheEnding)
  loadIncludes search (← readFile ((search.map Search.standard).getD false) path cache)

end Cppward.Build
