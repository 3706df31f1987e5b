import Cppward.Node.Basic

namespace Cppward.Analysis

/-!
# Named arguments

An assignment that is written as an argument of a call names the argument.  Parentheses around the
assignment keep it one.
-/

mutual
/-- Turns the assignments among the arguments of the calls in a tree into named arguments.  With
    `inCall`, the tree is itself an argument of a call. -/
def nameArguments (inCall : Bool) : Node → Node
  | ⟨info, kind, func, args, type⟩ =>
    match kind, inCall with
    | .call mark, _ => ⟨info, .call mark, func, nameArgumentsList true args, type⟩
    | .binary .assign op, true | .binary .named op, true =>
      ⟨{ info with id := 0 }, .binary .named op, none, nameArgumentsList false args, none⟩
    | .binary .typed op, true =>
      let new := { info with id := 0 }
      ⟨if (args.head?.map Node.isAssign).getD false then new else info, .binary .typed op, func,
        nameTyped new op args, type⟩
    | .parens, true => nameContent ⟨info, .parens, func, args, type⟩ args
    | kind, _ => ⟨info, kind, func, nameArgumentsList false args, type⟩

/-- The operands of a colon among the arguments of a call: a typed assignment names the argument. -/
def nameTyped (info : Info) (op : String) : List Node → List Node
  | [] => []
  | n :: ns => nameOperand info op n :: nameArgumentsList false ns

/-- The operand on the left of such a colon. -/
def nameOperand (info : Info) (op : String) : Node → Node
  | ⟨info', kind, func, args, type⟩ =>
    match kind with
    | .binary .assign _ | .binary .named _ =>
      ⟨info, .binary .named op, none, nameArgumentsList false args, none⟩
    | .call mark => ⟨info', .call mark, func, nameArgumentsList true args, type⟩
    | kind => ⟨info', kind, func, nameArgumentsList false args, type⟩

/-- The content of parentheses among the arguments of a call; around an assignment, typed or not,
    the parentheses have done their work. -/
def nameContent (whole : Node) : List Node → Node
  | [] => whole
  | n :: ns =>
    if n.isAssign || n.isTyped && (n.lhs?.map Node.isAssign).getD false then nameArguments false n
    else { whole with args := nameArguments false n :: nameArgumentsList false ns }

def nameArgumentsList (inCall : Bool) : List Node → List Node
  | [] => []
  | n :: ns => nameArguments inCall n :: nameArgumentsList inCall ns
end

end Cppward.Analysis
