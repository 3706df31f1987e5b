import Cppward.Emit.Type

namespace Cppward.Emit

/-!
# Literals

* `emitString` — string literals; an affix says what they are in the generated code,
* `emitList`, `emitBraces`, `emitTuple` — lists of expressions.
-/

variable (e : Emitter) (n : Node) (cx : Context)

def affixIs (a : Option Affix) (name : String) : Bool := a.map Affix.name == some name

def emitString (text : String) (lead tail : Option Affix) : Gen String := do
  let has (name : String) : Bool := affixIs lead name || affixIs tail name
  let standard (code : String) : String := "std::string " ++ braced code
  if has "c" && has "s" then Gen.refuse .stringBothKinds n
  else if affixIs lead "include" then return "#include \"" ++ text ++ "\"\n"
  else if affixIs lead "char" then return "'" ++ text ++ "'"
  else if affixIs lead "cpp" then
    if tail.isSome then Gen.refuse .rawSuffix n else return text
  else if affixIs lead "c" then return literalText text none tail
  else if affixIs lead "s" then return standard (literalText text none tail)
  else if affixIs tail "c" then return literalText text lead none
  else if affixIs tail "s" then return standard (literalText text lead none)
  else return literalText text lead tail

/-- The element type of a list that the variable it is assigned to declares. -/
def declaredElement : Gen (Option Node) := do
  match ← Gen.parent n with
  | some holder =>
    if !holder.isAssign then return none
    match (holder.lhs?.bind Node.type).bind Node.stripMutOrConst with
    | some type =>
      if !type.isList then return none
      match type.args with
      | [element] => return some element
      | _ => Gen.refuse .listTypeForm type
    | none => return none
  | none => return none

def emitList : Gen String := do
  let type ←
    match n.type with
    | some type => pure (some type)
    | none => declaredElement n
  let elements ← e.nodes n.args cx
  match type, n.args with
  | some type, _ =>
    return "std::vector<" ++ (← emitType e n (some type) cx) ++ ">" ++ braced elements
  | none, [] => Gen.refuse .emptyVector n
  | none, [a] =>
    return "std::vector " ++ (if a.isList then braced (braced elements) else braced elements)
  | none, _ => return "std::vector " ++ braced (braced elements)

def emitBraces : Gen String := do
  if ← Gen.parentIs n Node.isBlock then Gen.refuse .bracesStatement n
  return braced (← e.nodes n.args cx)

def emitTuple : Gen String := do
  return "std::make_tuple(" ++ (← e.nodes n.args cx) ++ ")"

end Cppward.Emit
