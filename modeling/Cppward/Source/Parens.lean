import Cppward.Node.Basic

namespace Cppward.Source

/-!
# Redundant parentheses

The grammar marks every complete expression.  An expression whose only content is an expression in
parentheses shows two marks in a row, and those parentheses are redundant; all other marks are
dropped.
-/

mutual
/-- Drops the marks of a tree.  With `inside`, the tree is the content of a mark. -/
def unwrap (inside : Bool) : Node → Node
  | ⟨info, kind, func, args, type⟩ =>
    match kind, inside with
    | .wrapper, false => unwrapContent args
    | .wrapper, true => Node.make .parens none (unwrapList args) info.loc
    | kind, _ => ⟨info, kind, unwrapOption func, unwrapList args, type⟩

/-- Drops the mark around its content. -/
def unwrapContent : List Node → Node
  | [] => Node.make .wrapper none []
  | n :: _ => unwrap true n

def unwrapOption : Option Node → Option Node
  | none => none
  | some n => some (unwrap false n)

def unwrapList : List Node → List Node
  | [] => []
  | n :: ns => unwrap false n :: unwrapList ns
end

end Cppward.Source
