import Cppward.Emit.Expression

namespace Cppward.Emit

open Analysis

/-!
# Modules

The code of a module goes to one file; the code of the modules that it includes goes to headers.
-/

/-- The includes that every file begins with. -/
def preamble : String :=
  "\n#include <string>\n#include <cstdio>\n#include <cstdlib>\n#include <iostream>\n" ++
  "#include <fstream>\n#include <sstream>\n#include <functional>\n#include <cassert>\n" ++
  "#include <compare> // for <=>\n#include <thread>\n#include <optional>\n\n\n" ++
  "#include \"ceto.h\"\n\n"

/-- What is generated from a program. -/
structure Output where
  code : String := ""
  /-- The headers, each with the name of its file. -/
  headers : List (String × String) := []
  hasMain : Bool := false
  /-- The number of the last fresh name. -/
  names : Nat := 0
  /-- The program as it is left. -/
  program : Program := {}

namespace Output

/-- Adds code to the file it belongs to. -/
def add (o : Output) (header : Option Header) (code : String) : Output :=
  match header with
  | none => { o with code := o.code ++ code }
  | some h =>
    { o with headers :=
        if (o.headers.lookup h.generated).isSome then
          o.headers.map fun (name, old) =>
            if name == h.generated then (name, old ++ code) else (name, old)
        else o.headers ++ [(h.generated, code)] }

/-- The files with their first lines. -/
def complete (o : Output) : Output :=
  { o with
    code := preamble ++ o.code
    headers := o.headers.map fun (name, code) => (name, "#pragma once\n" ++ preamble ++ code) }

/-- The code with its hidden escapes shown again. -/
def text (o : Output) : String := Text.replace "CETO_PRIVATE_ESCAPED_UNICODE" "\\u" o.code

end Output

/-- How deep the parts of the generator may call each other. -/
def depth : Nat := 1000

def emitTopStatement (e : Emitter) (n : Node) (cx : Context) : Gen String := do
  if n.isCallOf "def" then
    emitFunction e n (← Gen.enterWith cx ({ · with inParameterList := true }))
  else emitStatement e n cx

/-- The code of the statements of a module, by the files they belong to. -/
def emitStatements (e : Emitter) (statements : List Node) (cx : Context) : Gen Output :=
  statements.foldlM (fun o n => do return o.add n.info.header (← emitTopStatement e n cx)) {}

/-- The code of a program; fresh names are numbered from `names` on. -/
def emitModule (p : Program) (names : Nat := 0) : Except Failure Output := do
  let (cx, p) := p.addScope {}
  let (output, g) ← (emitStatements (emitter depth) p.tree.args cx).run { program := p, names }
  return { output.complete with hasMain := g.hasMain, names := g.names, program := g.program }

end Cppward.Emit
