import Cppward.Build.Arguments
import Cppward.Build.MacroBody

namespace Cppward.Build

/-!
# The command

The command compiles a file and writes the code beside it.  If the program has a main function, the
code is compiled further and the result is run; both is left to whoever runs the command, who gets a
plan.
-/

variable (env : Environment) (a : Arguments) (file : String)

/-- What the command finds. -/
structure Environment where
  /-- The directory with the files that belong to the compiler. -/
  package : String
  /-- Further directories with headers that belong to the compiler. -/
  headers : List String := []
  /-- The compiler of the generated code, and its flags, if they are not the usual ones. -/
  compiler : Option String := none
  flags : Option String := none
  /-- Includes and macros cannot be used, and no standard modules are included. -/
  isolated : Bool := false
  deriving Repr

/-- The code of a file whose path starts at the root. -/
def compileFile (settings : Option Settings) (path : String) : Action Session Emit.Output := do
  let module ← Session.onDisk (loadFile (settings.map Settings.search) path)
  Session.compile (← expandMacros settings macroDepth module)

/-- How the command ends. -/
inductive Ending where
  /-- With a code. -/
  | exit (code : Int)
  /-- Without giving a code. -/
  | finished
  /-- With a failure that is not reported. -/
  | failed (e : Failure)
  deriving Repr

/-- The programs that are started when a file has been compiled. -/
structure Plan where
  /-- The command line that compiles the generated code. -/
  compile : String
  /-- The program that was built, with its arguments, if it is to be run. -/
  execute : Option (List String)
  deriving Repr

/-- The command lines that are started, and how the command ends, if the programs end with the codes
    `codes`. -/
def Plan.follow (p : Plan) : (codes : List Int) → List String × Ending
  | [] => ([p.compile], .failed .unforeseen)
  | code :: codes =>
    if code != 0 then ([p.compile], .exit code)
    else
      match p.execute with
      | none => ([p.compile], .finished)
      | some words =>
        ([p.compile, " ".intercalate words],
          match codes with
          | code :: _ => .exit code
          | [] => .failed .unforeseen)

/-- What the command has done. -/
structure Run where
  /-- The ending, or a plan to go on with. -/
  result : Ending ⊕ Plan
  /-- The text for the error stream. -/
  errors : String
  disk : Disk

/-- The places of a file that a message shows. -/
def excerpt (source : List Char) (loc : Nat) : String := String.ofList ((source.drop loc).take 10)

/-- The report on a failure, if there is one. -/
def reportOf (source : List Char) : Failure → Option String
  | .unreadable => some "Syntax Error.\n"
  | .analysis fault (some ⟨_, some loc⟩) =>
    some (excerpt source loc ++ "\n" ++ fault.message ++ "\n")
  | .emission fault (some ⟨_, some loc⟩) =>
    some (excerpt source loc ++ "\n" ++ fault.message ++ "\n")
  | _ => none

def endsWith (path ending : String) : Bool := ending.toList.isSuffixOf path.toList

/-- The ending of the generated file. -/
def extension (hasMain : Bool) : String :=
  if endsWith file "cth" then ".h"
  else if endsWith file "ctp" then ".cpp"
  else if hasMain then ".cpp"
  else ".h"

/-- The flags that the generated code is compiled with. -/
def usualFlags : String :=
  "-std=c++20 -Wall -pedantic-errors -Wconversion -Wno-parentheses -lpthread"

/-- The plan for a file that has been compiled. -/
def planFor (base generated : String) : Plan :=
  let exeName := (a.exeName.filter (!·.isEmpty)).getD base
  let dirs := [env.package ++ "/../include/kit_local_shared_ptr", env.package,
    env.package ++ "/kit_local_shared_ptr"] ++ a.includeDirs
  let flags := env.flags.getD usualFlags ++ String.join (dirs.map (" -I" ++ ·))
  { compile := " ".intercalate [env.compiler.getD "c++", generated, "-o " ++ exeName, flags]
    execute := if a.doNotExecute then none else some (Path.join "." exeName :: a.programArgs) }

def settingsFor : Option Settings :=
  if env.isolated then none
  else
    some {
      file
      search := {
        directories := [Path.directory file, env.package] ++ a.includeDirs
        standard := !a.noStandard }
      headers := env.package :: env.headers }

namespace Command

/-- Compiles a file, writes the code, and says how to go on. -/
def compile (disk : Disk) : Run :=
  let source := ((disk.find? file).map File.content).getD []
  let (result, s) := (compileFile (settingsFor env a file) file).perform { disk }
  let warnings := String.join (s.warnings.map (· ++ "\n"))
  let run (result : Ending ⊕ Plan) (errors : String := "") (disk : Disk := s.disk) : Run :=
    { result, errors := warnings ++ errors, disk }
  match result with
  | .error e =>
    match reportOf source e with
    | some report => run (.inl (.exit (-1))) report
    | none => run (.inl (.failed e))
  | .ok output =>
    if endsWith file "cth" && output.hasMain then run (.inl (.exit (-1)))
    else
      let base := Path.dropSuffix file
      let ext := extension file output.hasMain
      let generated := base ++ ".donotedit.autogenerated" ++ ext
      let code := if ext == ".h" then "#pragma once\n" ++ output.text else output.text
      let disk := s.disk.write generated code
      if !output.hasMain || a.compileOnly then run (.inl (.exit 0)) "" disk
      else run (.inr (planFor env a base generated)) "" disk

/-- Runs the command up to the plan. -/
def run (args : List String) (disk : Disk) : Run :=
  match Arguments.parse args with
  | .error refusal =>
    { result := .inl (.exit refusal.exitCode), errors := refusal.report, disk }
  | .ok a =>
    let file := disk.resolve a.file
    match (Disk.lookFor file).perform disk with
    | (.ok (some _), disk) => compile env a file disk
    | (_, disk) => { result := .inl (.exit (-1)), errors := "", disk }

end Command

end Cppward.Build
