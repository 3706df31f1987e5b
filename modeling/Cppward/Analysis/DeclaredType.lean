import Cppward.Node.TypeList

namespace Cppward.Analysis

/-!
# Declared types

A colon gives the expression on its left the type on its right.  This pass removes the colon and
records the type with the expression.  A colon whose left operand is again a colon gives the inner
colon a type; the inner one is resolved when the pass is run once more.
-/

mutual
/-- Records the types that colons give in a tree. -/
def declareTypes : Node → Node
  | ⟨info, kind, func, args, type⟩ =>
    match kind with
    | .binary .typed op => declareOperands ⟨info, .binary .typed op, func, args, type⟩ args
    | kind => ⟨info, kind, declareOption func, declareList args, type⟩

/-- The operand on the left of a colon, with the type on the right. -/
def declareOperands (whole : Node) : List Node → Node
  | ⟨info, kind, func, args, _⟩ :: types =>
    ⟨info, kind, declareOption func, declareList args, Node.ofSpecifiers? (declareSpecifiersList types)⟩
  | [] => whole

/-- The specifiers of a type, with the types in them recorded. -/
def declareSpecifiers : Node → List Node
  | ⟨info, kind, func, args, type⟩ =>
    match kind with
    | .binary .typed _ | .binary (.clause _) _ => declareSpecifiersList args
    | kind =>
      ⟨info, kind, declareOption func, declareList args, type⟩ :: declareSpecifiersOption type

def declareSpecifiersOption : Option Node → List Node
  | none => []
  | some n => declareSpecifiers n

def declareSpecifiersList : List Node → List Node
  | [] => []
  | n :: ns => declareSpecifiers n ++ declareSpecifiersList ns

def declareOption : Option Node → Option Node
  | none => none
  | some n => some (declareTypes n)

def declareList : List Node → List Node
  | [] => []
  | n :: ns => declareTypes n :: declareList ns
end

end Cppward.Analysis
