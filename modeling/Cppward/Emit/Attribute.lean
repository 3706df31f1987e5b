import Cppward.Emit.Generator

namespace Cppward.Emit

/-!
# Attribute accesses

In `a.b.c` the first name decides.  If it is no variable, the whole chain names something in a
namespace or class, and is written with `::`.  Otherwise a member is accessed, through the pointer if
the target is one.
-/

/-- The first node of a chain of attribute accesses, and the links from the last to the first. -/
def chainOf : Node → Node × List Node
  | ⟨info, kind, func, args, type⟩ =>
    match kind, args with
    | .binary .attribute _, [lhs, rhs] =>
      let (first, links) := chainOf lhs
      (first, rhs :: links)
    | _, _ => (⟨info, kind, func, args, type⟩, [])

/-- The code of a chain whose first name is no variable.  If the last link is a name, all links have
    to be names. -/
def qualifiedName (e : Emitter) (first : String) (links : List Node) (cx : Context) :
    Gen String := do
  if (links.head?.map Node.isIdent).getD false then
    let names ← links.reverse.mapM fun l => Gen.need l.name?
    return "::".intercalate (first :: names)
  else
    let rest ← Gen.need (Node.ofChain? links)
    return first ++ "::" ++ (← e.node rest cx)

/-- The methods of optional values themselves, not of what they hold. -/
def optionalMethods : List String :=
  ["value", "has_value", "value_or", "and_then", "transform", "or_else", "swap", "reset", "emplace"]

def memberAccess (e : Emitter) (lhs rhs : Node) (cx : Context) : Gen String := do
  let through := if rhs.isOneOf optionalMethods then "mad_smartptr" else "mad"
  let target ← e.node lhs cx
  return "(*ceto::" ++ through ++ "(" ++ target ++ "))." ++ (← e.node rhs cx)

def emitAttribute (e : Emitter) (n : Node) (cx : Context) : Gen String := do
  let n ← Gen.current n
  match n.args with
  | [lhs, rhs] =>
    let known ← if lhs.isIdent then Gen.lookupClass cx (some lhs) else pure none
    if known.isSome then
      let name := lhs.name?.getD ""
      if rhs.isNamed "class" then return name
      else return name ++ "::" ++ (← e.node rhs cx)
    if lhs.isIdent || lhs.isAttribute then
      let (first, links) := chainOf n
      match first.name? with
      | some name =>
        if name != "self" then
          if (← Gen.findDef first first).isNone then
            return ← qualifiedName e name links cx
      | none => pure ()
    memberAccess e lhs rhs cx
  | _ => Gen.unforeseen

end Cppward.Emit
