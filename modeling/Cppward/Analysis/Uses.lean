import Cppward.Analysis.Program

namespace Cppward.Analysis

/-!
# Uses of a variable

* `findUses` — the nodes through which the result of an assignment is used,
* `findUse` — the first statement that has the assigned variable among its arguments,
* `isLastUse` — whether a variable can be moved from.
-/

variable (p : Program) (n : Node) (name : Option String)

mutual
/-- The outermost nodes of a tree whose name is `name`; all nodes that are not names share the
    name `none`. -/
def nodesNamed (name : Option String) : Node → List Node
  | ⟨info, kind, func, args, type⟩ =>
    let n : Node := ⟨info, kind, func, args, type⟩
    if n.name? == name then [n] else nodesNamedList name args ++ nodesNamedOption name func

def nodesNamedOption (name : Option String) : Option Node → List Node
  | none => []
  | some n => nodesNamed name n

def nodesNamedList (name : Option String) : List Node → List Node
  | [] => []
  | n :: ns => nodesNamed name n ++ nodesNamedList name ns
end

namespace Program

/-- The nodes after `n` in a list. -/
def following (ns : List Node) : List Node :=
  (ns.dropWhile fun m => m.id != n.id).drop 1

/-- The uses of what an assignment assigns: in the body of the definition whose parameter it is, in
    the statements after it, or else in the assignment itself. -/
def findUses (assign : Node) : Except Failure (List Node) :=
  let name := assign.lhsName?
  match p.parent? assign with
  | none => .error .unforeseen
  | some holder =>
    if holder.isCallOfAny ["def", "lambda"] then
      match holder.args.getLast? with
      | some body =>
        if body.isBlock then .ok (nodesNamedList name body.args) else .error .unforeseen
      | none => .error .unforeseen
    else if holder.isBlock then .ok (nodesNamedList name (following assign holder.args))
    else .ok (nodesNamedList name assign.args ++ nodesNamedOption name assign.func)

/-- The first statement after an assignment that has the assigned variable among its arguments, and
    that argument. -/
def findUse (assign : Node) : Option (Node × Node) :=
  match p.parent? assign, assign.lhsName? with
  | some holder, some name =>
    if holder.isBlock then
      (following assign holder.args).findSome? fun statement =>
        (statement.args.find? (·.isNamed name)).map fun arg => (arg, statement)
    else none
  | _, _ => none

/-- The place of a name lets it be moved from. -/
def isMovable (holder : Option Node) : Bool :=
  match holder with
  | none => true
  | some h =>
    if h.isScope || h.isAttribute || h.isArrow || h.isTemplate then false
    else if h.isBinary || h.isUnary then h.isAssign
    else !(h.isCall && (h.func.map Node.id) == some n.id)

/-- No other use of the name of `n` is found on the way out from `holder`, which `inner` was reached
    from, to the definition around it. -/
def noOtherUse (p : Program) (n : Node) : (fuel : Nat) → Node → Option Node → Bool
  | 0, _, _ | _, _, none => true
  | fuel + 1, inner, some holder =>
    if holder.isDefinition then true
    else
      let other (m : Node) : Bool := m.id != n.id && m.name? == n.name?
      let later := holder.isBlock &&
        (following inner holder.args).any fun statement => statement.any other
      if later || holder.args.any other then false
      else noOtherUse p n fuel holder (p.parent? holder)

/-- Nothing uses the variable after this use of it. -/
def isLastUse : Except Failure Bool :=
  let holder := p.parent? n
  if n.isNamed "u" && holder.isNone then .error .unforeseen
  else .ok (isMovable n holder && p.noOtherUse n (p.nodes.size + 1) n holder)

end Program

end Cppward.Analysis
