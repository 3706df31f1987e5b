import Cppward.Grammar.Branches
import Cppward.Grammar.Expression
import Cppward.Layout.Block
import Cppward.Source.Include
import Cppward.Source.Namespace
import Cppward.Source.Parens

namespace Cppward.Source

open Text Layout Grammar

/-!
# Reading a source text

A text is read in four steps: escaped backslashes are put aside, the text is laid out, each block
of the layout is read by the grammar, and the marks and the namespace of the file are resolved.
-/

/-- Puts words in place of the escape sequences that neither layout nor grammar may see. -/
def hideEscapes (text : List Char) : List Char :=
  let text := replaceAll ['\\', '\\'] backslashWord.toList text
  let text := replaceAll ['\\', 'U'] unicodeWord.toList text
  replaceAll ['\\', 'u'] unicodeWord.toList text

def readBlock (text : List Char) : Except Failure (List Node) :=
  let text := expandTabs (completeBranches (strip text))
  match statements (text.length + 1) { rest := text } with
  | ⟨_, true⟩ => .error (.source .doubleAmpersand)
  | ⟨none, false⟩ => .error .unreadable
  | ⟨some (nodes, _), false⟩ => .ok nodes

def readBlocks : List Layout.Block → Except Failure (List Node)
  | [] => .ok []
  | b :: bs => do
    if allBlank b.text then
      readBlocks bs
    else
      let nodes ← readBlock b.text
      return nodes ++ (← readBlocks bs)

def readModule (source : String) : Except Failure Node := do
  match layout (hideEscapes source.toList) with
  | .error e => throw (.layout e)
  | .ok laidOut =>
    let nodes ← readBlocks laidOut.blocks
    match expandNamespace (unwrap false (Node.ofModule nodes)) with
    | .error fault => throw (.source fault)
    | .ok module => return module

/-- Reads a text as a program of its own: there is nowhere to include other modules from. -/
def readProgram (source : String) : Except Failure Node := do
  let module ← readModule source
  let nowhere : String → Action Unit (Option (Header × List Node)) := fun _ => throw .unforeseen
  let statements ← ((expandIncludes nowhere module.args).perform ()).1
  return { module with args := statements }

end Cppward.Source
