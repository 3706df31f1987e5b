import Cppward.Node.Text

namespace Cppward.Analysis

/-!
# Removal of redundant parentheses

Redundant parentheses are removed with a warning.  One pair is removed around an expression; a pair
that stands directly inside a removed one is kept.
-/

/-- The warning about parentheses around a node. -/
def parensWarning (content : Node) : String := "warning: redundant parens " ++ content.text

mutual
/-- Removes redundant parentheses.  The warnings come in the order in which the parentheses are
    met. -/
def removeParens : Node → Node × List String
  | ⟨info, kind, func, args, type⟩ =>
    match kind with
    | .parens => removeAround ⟨info, .parens, func, args, type⟩ args
    | kind =>
      let (args, warnings) := removeParensList args
      let (func, more) := removeParensOption func
      (⟨info, kind, func, args, type⟩, warnings ++ more)

/-- Removes the parentheses around their content. -/
def removeAround (whole : Node) : List Node → Node × List String
  | [] => (whole, [])
  | n :: _ =>
    let (content, warnings) := removeInside n
    (content, parensWarning n :: warnings)

/-- Removes the parentheses below a node, which itself stays. -/
def removeInside : Node → Node × List String
  | ⟨info, kind, func, args, type⟩ =>
    let (args, warnings) := removeParensList args
    let (func, more) := removeParensOption func
    (⟨info, kind, func, args, type⟩, warnings ++ more)

def removeParensOption : Option Node → Option Node × List String
  | none => (none, [])
  | some n =>
    let (n, warnings) := removeParens n
    (some n, warnings)

def removeParensList : List Node → List Node × List String
  | [] => ([], [])
  | n :: ns =>
    let (n, warnings) := removeParens n
    let (ns, more) := removeParensList ns
    (n :: ns, warnings ++ more)
end

end Cppward.Analysis
