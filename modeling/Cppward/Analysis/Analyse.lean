import Cppward.Analysis.Branch
import Cppward.Analysis.DeclaredType
import Cppward.Analysis.NamedArgument
import Cppward.Analysis.Parens
import Cppward.Analysis.Resolve
import Cppward.Analysis.Safety

namespace Cppward.Analysis

/-!
# Analysis of a program

The passes in order.  Scopes are assigned twice, since the safety checks look names up and change
the tree.  The second time, declared types keep the scopes of the first, and the module keeps the
definitions.
-/

/-- A result with the warnings that were given on the way to it. -/
structure Report (α : Type) where
  warnings : List String
  result : Except Failure α

/-- The passes on the tree of a module before its types are recorded. -/
def prepare (module : Node) : Report Node :=
  match expandBodies module with
  | .error e => ⟨[], .error e⟩
  | .ok module =>
    let (module, warnings) := removeParens (nameArguments false module)
    ⟨warnings, .ok module⟩

mutual
/-- Takes the nodes of a tree, declared types aside, out of their scopes. -/
def clearScopes : Node → Program → Program
  | ⟨info, _, func, args, _⟩, p =>
    clearOption func (clearList args { p with scopeTable := p.scopeTable.setIfInBounds info.id none })

def clearOption : Option Node → Program → Program
  | none, p => p
  | some n, p => clearScopes n p

def clearList : List Node → Program → Program
  | [], p => p
  | n :: ns, p => clearList ns (clearScopes n p)
end

/-- Takes the nodes of the tree out of their scopes; only the module keeps its own. -/
def clearProgram (p : Program) : Program :=
  clearOption p.tree.func (clearList p.tree.args p)

/-- Cuts the links from scopes to scopes around them that no node belongs to any more. -/
def dropEmptyScopes (p : Program) : Program :=
  let used := p.tree.walk.filterMap p.scopeOf?
  { p with scopes := p.scopes.map fun s =>
      { s with parent := s.parent.filter used.contains } }

/-- Records the types of the tree and assigns scopes. -/
def assignScopes : Build Unit := do
  modify fun p => p.refresh (declareTypes p.tree)
  resolve (← get).tree

def analyseProgram : Build Unit := do
  assignScopes
  checkSafety
  modify clearProgram
  assignScopes
  modify dropEmptyScopes

/-- Analyses the tree of a module, parts of which may have been analysed in the program `p`. -/
def analyseAfter (p : Program) (module : Node) : Report Program :=
  match prepare module with
  | ⟨warnings, .error e⟩ => ⟨warnings, .error e⟩
  | ⟨warnings, .ok module⟩ => ⟨warnings, (analyseProgram.run (p.resume module)).map (·.2)⟩

def analyse (module : Node) : Report Program := analyseAfter {} module

end Cppward.Analysis
