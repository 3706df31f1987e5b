namespace Cppward.Build.Path

/-!
# Paths

Paths are texts in which slashes separate the names of directories.
-/

/-- The path starts at the root. -/
def isAbsolute (path : String) : Bool := path.toList.head? == some '/'

/-- A path that is taken from a directory. -/
def join (directory path : String) : String :=
  if isAbsolute path then path
  else if directory.isEmpty || directory.toList.getLast? == some '/' then directory ++ path
  else directory ++ "/" ++ path

def fileName (path : String) : String :=
  String.ofList ((path.toList.reverse.takeWhile (· != '/')).reverse)

/-- The path without its last name. -/
def directory (path : String) : String :=
  let head := path.toList.reverse.dropWhile (· != '/')
  let trimmed := head.dropWhile (· == '/')
  String.ofList (if trimmed.isEmpty then head else trimmed).reverse

/-- The path without the last suffix of its last name.  A name that only starts or ends with a point
    has no suffix. -/
def dropSuffix (path : String) : String :=
  let name := (fileName path).toList
  let tail := name.reverse.takeWhile (· != '.')
  let head := (name.reverse.drop (tail.length + 1)).reverse
  if tail.length == name.length || tail.isEmpty || head.isEmpty then path
  else String.ofList (path.toList.take (path.length - tail.length - 1))

def names (path : String) : List String :=
  (path.toList.splitOn '/').map String.ofList

/-- Drops empty names and points, and goes back where a path says so. -/
def straighten : List String → List String → List String
  | done, [] => done.reverse
  | done, name :: rest =>
    if name.isEmpty || name == "." then straighten done rest
    else if name == ".." then straighten (done.drop 1) rest
    else straighten (name :: done) rest

/-- The path of a file as seen from a directory, from the root on and without detours. -/
def resolve (directory path : String) : String :=
  "/" ++ "/".intercalate (straighten [] (names (join directory path)))

end Cppward.Build.Path
