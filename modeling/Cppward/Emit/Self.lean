import Cppward.Emit.Generator

namespace Cppward.Emit

open Analysis

/-!
# The object itself

A method speaks of its object as `self`.  Where that is only a way to a member, `self.x`, the member
is reached through `this`; any other use needs a variable `self`.
-/

/-- A lambda whose list of captures begins with `ref`. -/
def capturesByReference (n : Node) : Bool :=
  match n.func with
  | some f =>
    f.isIndex && f.funcName? == some "lambda" && (f.args.head?.map (·.isNamed "ref")).getD false
  | none => false

/-- From the node `n` out to the definition with the label `definition`, at most `fuel` levels, no
    other definition hides `this`. -/
def sharesSelf (definition : Nat) : (fuel : Nat) → Node → Gen Bool
  | 0, _ => Gen.unforeseen
  | fuel + 1, n => do
    if n.id == definition then return true
    else if n.isDefinition && !capturesByReference n then return false
    else sharesSelf definition fuel (← Gen.need (← Gen.parent n))

/-- Puts a node in place of a direct part of another node. -/
def exchange (old new holder : Node) : Node :=
  let swap (m : Node) : Node := if m.id == old.id then new else m
  if holder.args.any (·.id == old.id) then { holder with args := holder.args.map swap }
  else { holder with func := holder.func.map swap }

/-- Lets the access of a member of `self` go through `this`. -/
def throughThis (self access : Node) : Gen Unit := do
  let holder ← Gen.need (← Gen.parent access)
  let member ← Gen.need access.rhs?
  let arrow ← Gen.adopt (Node.ofBinary .arrow "->" (Node.ident "this") member)
  let this ← Gen.need arrow.lhs?
  Gen.modifyProgram fun p =>
    let scope := p.scopeOf? self
    let p := (p.setScope arrow scope).setScope this scope
    let p := ((p.setParent arrow (some holder)).setParent this (some arrow)).setParent member
      (some arrow)
    p.update (exchange access arrow holder)

/-- Lets the accesses of members of `self` in a definition go through `this`, and says whether
    another use of `self` is left. -/
def reachThis (definition : Node) : Gen Bool := do
  let definition ← Gen.current definition
  let isClass (n : Node) : Bool := (n.func.map (·.isOneOf ["class", "struct"])).getD false
  (definition.findAll (·.isNamed "self") isClass).foldlM (fun rest self => do
    let shares ← sharesSelf definition.id ((← Gen.program).nodes.size + 1) self
    match ← Gen.parent self with
    | some access =>
      if shares && access.isAttribute && access.lhs?.map Node.id == some self.id then
        throughThis self access
        return rest
      else return true
    | none => return true) false

end Cppward.Emit
