import Cppward.Build.Session
import Cppward.Macro.Expansion
import Cppward.Macro.Quote

namespace Cppward.Build

/-!
# Bodies of macros

The body of a macro is compiled as a module of its own: the statements before the definition,
followed by a function that does what the body says.  The function takes the nodes that are bound to
the parameters, by their names.
-/

/-- What a compilation is told. -/
structure Settings where
  /-- The main file. -/
  file : String
  search : Search
  /-- The directories with the headers that bodies of macros need. -/
  headers : List String
  /-- The library of a macro body can be built. -/
  canBuild : Bool := true
  deriving Repr

/-! ### The function -/

/-- The element of the parameters that is bound to a name. -/
def boundValue (name : String) : String := "CETO_PRIVATE_params.at(\"" ++ name ++ "\")"

/-- The type that an optional or alternative parameter is seen as. -/
def alternativeType (alternatives : List Node) : String :=
  match alternatives.filterMap fun n => n.name?.filter (· != "None") with
  | [only] => only
  | _ => "Node"

/-- The value of an optional or alternative parameter, which may not be bound. -/
def alternativeValue (name type : String) : String :=
  "if (CETO_PRIVATE_params.find('" ++ name ++ "') != CETO_PRIVATE_params.end():\n        " ++
  "asinstance(CETO_PRIVATE_params.at('" ++ name ++ "'), " ++ type ++ ")\n    else:\n        " ++
  "CETO_PRIVATE_none: " ++ type ++ " = None; CETO_PRIVATE_none\n    )\n"

/-- The value of a parameter, by the type it is declared with. -/
def parameterValue (name : String) (declarations : List Node) : String :=
  match declarations.find? fun d => d.isTyped && d.lhsName? == some name with
  | none => boundValue name
  | some d =>
    match d.rhs? with
    | none => boundValue name
    | some type =>
      match type.name? with
      | some typeName => "asinstance(" ++ boundValue name ++ ", " ++ typeName ++ ")"
      | none =>
        if type.isList then boundValue name ++ ".args"
        else if type.isBitOr then alternativeValue name (alternativeType type.args)
        else boundValue name

/-- The name of the function for the macro with a number. -/
def bodyName (number : Nat) : String := "macro_impl" ++ toString number

/-- The text of the function for a macro, with a placeholder for its body. -/
def bodyText (number : Nat) (params : List String) (declarations : List Node) : String :=
  "def (" ++ bodyName number ++
  ": extern:\"C\":CETO_EXPORT:noinline, CETO_PRIVATE_params: const:std.map<std.string, Node>:ref:\n" ++
  String.join (params.map fun name =>
    "    " ++ name ++ " = " ++ parameterValue name declarations ++ "\n") ++
  "    pass\n): std.variant<Node, ceto.macros.Skip>"

/-- Puts statements in place of the placeholder at the end of a function. -/
def putBody (statements : List Node) (typedFunction : Node) : Option Node :=
  match typedFunction.args with
  | function :: rest =>
    match function.args.getLast? with
    | some block =>
      let block := { block with args := block.args.dropLast ++ statements }
      let function := { function with args := function.args.dropLast ++ [block] }
      some { typedFunction with args := function :: rest }
    | none => none
  | [] => none

def bodyFunction (number : Nat) (params : List String) (declarations statements : List Node) :
    Except Failure Node := do
  match (← Source.readProgram (bodyText number params declarations)).args with
  | typedFunction :: _ =>
    match putBody statements typedFunction with
    | some function => return function
    | none => throw .unforeseen
  | [] => throw .unforeseen

/-! ### The module -/

/-- The statement defines the main function.  A definition of nothing is not provided for. -/
def definesMain (n : Node) : Except Failure Bool :=
  if n.isCallOf "def" then
    match n.args with
    | name :: _ => return name.isNamed "main"
    | [] => throw .unforeseen
  else return false

/-- The statements of a module up to the definition with a label, with a function in its place and
    without the main function. -/
def bodyModule (statements : List Node) (definition : Nat) (function : Node) :
    Except Failure (List Node) := do
  let kept ← statements.filterM fun n => do return !(← definesMain n)
  let before := kept.takeWhile (·.id != definition)
  if before.length == kept.length then
    throw .unforeseen
  return before ++ [function]

/-! ### Headers -/

/-- The headers that bodies need. -/
def bodyHeaders : List String := ["ast.cth", "utility.cth", "range_utility.cth", "visitor.cth"]

/-- The start of the names that headers are copied to. -/
def headerMark : String := "ceto__private__"

/-- The text of a copied header.  The header that includes the others includes their copies. -/
def copiedText (name : String) (file : File) : String :=
  if name == "ast.cth" then
    ["utility", "range_utility", "visitor"].foldl (fun text included =>
      Text.replace ("include (" ++ included ++ ")") ("include (" ++ headerMark ++ included ++ ")") text)
      (String.ofList file.content)
  else file.text

/-- Copies headers into a directory, those that are not there yet, and gives the paths of the
    copies. -/
def copyHeaders (sources : List String) (target : String) : List String → Action Disk (List String)
  | [] => return []
  | name :: names => do
    let copy := Path.join target (headerMark ++ name)
    if (← Disk.lookFor copy).isSome then
      return ← copyHeaders sources target names
    match ← findDirectory name sources with
    | none => copyHeaders sources target names
    | some d =>
      let file ← Disk.fetch (Path.join d name)
      modify (·.write copy (copiedText name file))
      return copy :: (← copyHeaders sources target names)

/-- The statements that a module with a macro body starts with.  Copied headers are removed when
    they have been read. -/
def headerStatements (settings : Settings) (target : String) : Action Disk (List Node) := do
  let copies ← copyHeaders settings.headers target bodyHeaders
  match Source.readModule ("include (" ++ headerMark ++ "ast)") with
  | .error e => throw e
  | .ok module =>
    let module ← loadIncludes (some { settings.search with standard := false }) module
    modify fun d => copies.foldl Disk.remove d
    return module.args

/-! ### Compilation -/

/-- The path of the files for the macro with a number in a source file, without their endings. -/
def bodyPath (source : String) (number : Nat) : String :=
  Path.join (Path.directory source)
    (Path.fileName source ++ ".macro_impl." ++ toString number)

/-- A library is used as it is: it is not older than its source, or the source is a standard
    module. -/
def isReady (source library : File) : Bool :=
  source.time ≤ library.time ||
    Text.occursIn "ceto_private".toList (Path.fileName source.path).toList

namespace MacroBody

/-- Compiles the body of a macro that is defined in a module, and builds its library.  `expand`
    expands the macros of the module that is made for the body. -/
def build (settings : Settings) (expand : Node → Action Session Node) (module : Node)
    (rule : Macro.Rule) (path directory : String) : Action Session Unit := do
  let definition ← Session.current rule.definition
  let module ← Session.current module
  let some body := definition.args.getLast? | throw .unforeseen
  let body ← Session.naming (Macro.expandQuotes body)
  let (body, next) := body.label (← Session.freeLabel module)
  Session.record body.table
  let function ← Session.lift
    (bodyFunction rule.index (rule.params.map (·.1)) (definition.args.drop 1) body.args)
  let statements ← Session.lift (bodyModule module.args definition.id function)
  let headers ← Session.onDisk (headerStatements settings directory)
  let (bodyModule, _) := (Node.ofModule (headers ++ statements)).label next
  let output ← Session.compile (← expand bodyModule)
  Session.record output.program.nodes
  modify fun s => { s with disk := s.disk.write (path ++ ".cpp") output.code }
  if !settings.canBuild then
    throw .unforeseen
  modify fun s => { s with disk := s.disk.write (path ++ ".so") "" }

/-- Prepares the body of a macro, and gives the path of its library. -/
def prepare (settings : Option Settings) (expand : Node → Action Session Node) (module : Node)
    (rule : Macro.Rule) : Action Session String := do
  let some settings := settings | throw .unforeseen
  let source := (rule.definition.info.header.map Header.source).getD settings.file
  let path := bodyPath source rule.index
  let library := path ++ ".so"
  match ← Session.onDisk (Disk.lookFor library) with
  | some file =>
    if !isReady (← Session.onDisk (Disk.fetch source)) file then
      build settings expand module rule path (Path.directory source)
  | none => build settings expand module rule path (Path.directory source)
  return library

end MacroBody

/-- Expands the macros of a module.  The bodies of the macros it defines are prepared, to depth
    `depth` where a body needs macros in turn; libraries are not run. -/
def expandMacros (settings : Option Settings) : (depth : Nat) → Node → Action Session Node
  | 0, _ => throw .unforeseen
  | depth + 1, module =>
    let bodies (module : Node) : Macro.Bodies Session String :=
      { current := Session.current
        define := fun rule _ => MacroBody.prepare settings (expandMacros settings depth) module rule
        run := fun library _ => throw (.expansion (.missingBody library)) }
    Macro.expand bodies module

/-- How deep macro bodies may need each other. -/
def macroDepth : Nat := 50

end Cppward.Build
