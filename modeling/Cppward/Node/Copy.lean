import Cppward.Node.Basic

namespace Cppward

/-!
# Copies

A copy has the classes, texts and offsets of the tree it is made from.  It forgets how the tree was
analysed: names keep their declared types, all other nodes lose them, and the marks on rebuilt
calls and clauses are dropped.
-/

/-- The kind without the marks of analysis. -/
def Kind.unmarked : Kind → Kind
  | .call _ => .call false
  | .binary (.clause _) op => .binary (.clause false) op
  | kind => kind

namespace Node

mutual
def copy : Node → Node
  | ⟨info, kind, func, args, type⟩ =>
    match kind with
    | .name text => ⟨info, .name text, func, args, type⟩
    | kind => ⟨info, kind.unmarked, copyOption func, copyList args, none⟩

def copyOption : Option Node → Option Node
  | none => none
  | some n => some n.copy

def copyList : List Node → List Node
  | [] => []
  | n :: ns => n.copy :: copyList ns
end

end Node

end Cppward
