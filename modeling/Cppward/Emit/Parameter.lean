import Cppward.Emit.Type

namespace Cppward.Emit

/-!
# Parameters

A parameter is a name with a type, with a default value, or with both.  It is constant unless its
type says `mut`, and instances of classes and containers are passed by reference.
-/

variable (e : Emitter) (n : Node) (cx : Context)

/-- The specifier names a class whose instances are held by pointers. -/
def isManaged (n : Node) : Gen Bool := do
  return ((← Gen.lookupClass cx (some n)).map (!·.entry.isStruct)).getD false

/-- The type of a node without its `mut`.  A `mut` that stands alone, or next to a class, is not
    taken off. -/
def withoutMut : Gen (Option Node) := do
  let types := (n.type.map Node.specifiers).getD []
  if types.length ≤ 1 then return none
  match types.filter (·.isNamed "mut") with
  | [] => return none
  | [_] =>
    let i := types.findIdx (·.isNamed "mut")
    let before := if i == 0 then [] else types[i - 1]?.toList
    if ← (before ++ types[i + 1]?.toList).anyM (isManaged cx) then return none
    return Node.ofSpecifiers? (types.filter (!·.isNamed "mut"))
  | _ => Gen.refuse .tooManyMut n

/-- A parameter of this type is passed by constant reference. -/
def isPassedByReference (type : Node) (cx : Context) : Gen Bool := do
  match ← Gen.lookupClass cx type.stripMutOrConst with
  | some c => return !c.entry.isUnique
  | none =>
    if type.isList || type.isTuple then return true
    if type.isAttribute && type.rhsName? == some "class" then
      if (← Gen.lookupClass cx type.lhs?).isSome then return true
    return type.isNamed "string" ||
      (type.isAttribute || type.isScope) &&
        type.lhsName? == some "std" && type.rhsName? == some "string"

def isUniqueType (type : Option Node) (cx : Context) : Gen Bool := do
  return ((← Gen.lookupClass cx type).map (·.entry.isUnique)).getD false

def saysConst (type : Node) : Bool := type.specifiers.any (·.isNamed "const")

/-- A typed parameter without a default value. -/
def plainParameter (n type : Node) (cx : Context) : Gen (String × String) := do
  let stripped ← withoutMut n cx
  let explicit := stripped.isSome || saysConst type
  let byReference ← if explicit then pure false else isPassedByReference type cx
  let unique ← isUniqueType type.stripMutOrConst cx
  let lead := if byReference || !explicit && !unique then "const " else " "
  let code ← emitType e n (some (stripped.getD type)) cx
  return (lead ++ code ++ (if byReference then "&" else ""), " " ++ (n.name?.getD ""))

def defaultedParameter (target type value : Node) (cx : Context) :
    Gen (String × String) := do
  let stripped ← withoutMut target cx
  let explicit := stripped.isSome || saysConst type
  let byReference ← isPassedByReference type cx
  let unique ← isUniqueType (some type) cx
  let lead := if byReference || !explicit && !unique then "const " else " "
  let code ← emitType e target (some (stripped.getD type)) cx
  return (lead ++ code ++ (if byReference then "&" else ""),
    target.name?.getD "" ++ " = " ++ (← e.node value cx))

/-- A parameter whose type is that of its default value. -/
def inferredParameter (argument target value : Node) (cx : Context) :
    Gen (String × String) := do
  let name := target.name?.getD "" ++ " = "
  if value.isList then
    if value.args.isEmpty then
      let element ← Gen.need (← e.element argument cx)
      return ("const std::vector<" ++ element ++ ">&", name ++ braced "")
    else
      let vector := "std::vector " ++ braced (← e.nodes value.args cx)
      return ("const decltype(" ++ vector ++ ")& ", name ++ vector)
  else
    match ← if value.isCall then Gen.lookupClass cx value.func else pure none with
    | some c =>
      let make ← e.node value cx
      let mark := if c.entry.isUnique then "" else "&"
      return ("const decltype(" ++ make ++ ")" ++ mark, name ++ make)
    | none =>
      let mark := if value.isStr then "& " else ""
      let type := "const decltype(" ++ (← e.node value cx) ++ ")" ++ mark
      return (type, name ++ (← e.node value cx))

def refuseParameter {α : Type} (fault : Analysis.Fault) (n : Node) : Gen α :=
  throw (.analysis fault (some (.ofNode n)))

/-- The type and the rest of a parameter; there is none if the parameter is a name alone. -/
def typedParameter : Gen (Option (String × String)) := do
  let n ← Gen.current n
  match n.type with
  | some type =>
    if n.isIdent then return some (← plainParameter e n type cx)
    else refuseParameter .typedParameter n
  | none =>
    if n.isNamedArgument then
      match n.args with
      | [target, value] =>
        if !target.isIdent then refuseParameter .parameterName n
        match target.type with
        | some type => return some (← defaultedParameter e target type value cx)
        | none => return some (← inferredParameter e n target value cx)
      | _ => Gen.unforeseen
    else if n.isAssign then refuseParameter .parenthesizedParameter n
    else return none

/-- A parameter with its type or default value as one text. -/
def parameterText : Gen (Option String) := do
  return (← typedParameter e n cx).map fun (type, rest) => type ++ " " ++ rest

end Cppward.Emit
