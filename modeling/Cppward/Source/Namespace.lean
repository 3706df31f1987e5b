import Cppward.Node.Basic
import Cppward.Source.Fault

namespace Cppward.Source

/-!
# The namespace of a file

A statement `namespace(name)` without a block places all later statements of the file in that
namespace.
-/

/-- The statements of a file, split at its namespace statement. -/
structure Placement where
  /-- The name of the namespace, once it is known. -/
  name : Option Node := none
  /-- The statements before the namespace statement, latest first. -/
  outer : List Node := []
  /-- The statements after it, latest first. -/
  inner : List Node := []

/-- A call of `namespace` at the outermost level of a file. -/
def isNamespace (n : Node) : Bool := n.isCallOf "namespace"

def Placement.add (p : Placement) (statement : Node) : Except Fault Placement :=
  if isNamespace statement then
    match statement.args with
    | [name] =>
      if p.name.isSome then .error .secondNamespace else .ok { p with name := some name }
    | _ => .ok p
  else if p.name.isSome then .ok { p with inner := statement :: p.inner }
  else .ok { p with outer := statement :: p.outer }

/-- Places the statements of a module in the namespace that the module asks for. -/
def expandNamespace (module : Node) : Except Fault Node := do
  let p ← module.args.foldlM Placement.add {}
  match p.name with
  | none => return module
  | some name =>
    let call := Node.ofCall (Node.ident "namespace") [name, Node.ofBlock p.inner.reverse]
    return Node.ofModule (p.outer.reverse ++ [call])

end Cppward.Source
