import Cppward.Emit.Inference
import Cppward.Emit.Move

namespace Cppward.Emit

open Analysis

/-!
# Assignments

The first assignment to a name declares it.  A declared variable is constant unless its type says
`mut`, and its value must not be narrowed.
-/

variable (e : Emitter) (n : Node) (cx : Context)

/-! ### Types of variables -/

/-- Some place in a list of specifiers decides about `const` itself: `const` and `auto` side by side,
    or a `const` before `ref`. -/
def decidesConst (specs : List Node) : Bool :=
  let isConstOrAuto (n : Option Node) : Bool := (n.map (·.isOneOf ["const", "auto"])).getD false
  (List.range specs.length).any fun i =>
    let other := if i == 0 then specs[1]? else specs[i - 1]?
    isConstOrAuto specs[i]? && isConstOrAuto other ||
      (specs[i]?.map (·.isNamed "const")).getD false &&
        (specs[i + 1]?.map (·.isNamed "ref")).getD false

/-- The type of a declared variable whose specifiers say something about `const`. -/
def specifiedType (n type : Node) (cx : Context) : Gen (Option String × Bool) := do
  let specs := type.specifiers
  let classes ← specs.filterMapM fun t => Gen.lookupClass cx (some t)
  let marks := specs.filter Node.isMutOrConst
  if classes.length > 1 then Gen.refuse .tooManyClasses n
  let isManaged := (classes.head?.map (!·.entry.isStruct)).getD false
  if marks.length > 1 && isManaged then Gen.refuse .tooManyMutConstClass n
  let isUnique := (classes.head?.map (·.entry.isUnique)).getD false
  let verbatim : Gen String := emitType e n (some type) cx
  let first (name : String) : Bool := (specs.head?.map (·.isNamed name)).getD false
  let last (name : String) : Bool := (specs.getLast?.map (·.isNamed name)).getD false
  match classes, marks with
  | _ :: _, mark :: _ =>
    let code ← verbatim
    return (some (if mark.isNamed "const" then "const " ++ code else code), isUnique)
  | _, _ =>
    if first "mut" then
      return (some (← emitType e n (Node.ofSpecifiers? (specs.drop 1)) cx), isUnique)
    else if last "mut" then
      return (some (← emitType e n (Node.ofSpecifiers? specs.dropLast) cx), isUnique)
    else if decidesConst specs || first "const" && !last "ptr" || last "const" then
      return (some (← verbatim), isUnique)
    else if last "ptr" then return (some ((← verbatim) ++ " const"), isUnique)
    else return (none, isUnique)

/-- The type of a declared variable, in two parts: `const` where it is implied, and the rest. -/
def declarationType : Gen (String × String) := do
  if !n.isIdent then Gen.refuse .typedDeclaration n
  let type ← Gen.need n.type
  let (code, isUnique) ←
    if type.isIdent then do
      if type.isNamed "auto" then Gen.refuse .autoAlone n
      let c ← Gen.lookupClass cx (some type)
      pure (none, (c.map (·.entry.isUnique)).getD false)
    else if type.isTyped then specifiedType e n type cx
    else pure (none, false)
  match code with
  | some code => return ("", code)
  | none =>
    let code ← emitType e n (some type) cx
    return (if isUnique then "" else "const ", code)

/-! ### Tuples -/

/-- The declaration of the names that a tuple is unpacked into; the names of a loop are references. -/
def structuredBinding (isLoop : Bool) (cx : Context) : Gen String := do
  let names := "[" ++ (← e.nodes n.args cx) ++ "]"
  let mark := if isLoop then "& " else " "
  match (← Gen.current n).type with
  | none => return "const auto" ++ mark ++ names
  | some type =>
    if type.isNamed "mut" then return "auto " ++ names
    else if type.isNamed "const" then return "const auto" ++ mark ++ names
    else
      let specs := type.specifiers.filter (!·.isNamed "mut")
      return (← emitType e n (Node.ofSpecifiers? specs) cx) ++ " " ++ names

/-- The assignment of a value to a tuple: new names are bound, others are assigned to. -/
def assignTuple (n target : Node) (value : String) (cx : Context) : Gen String := do
  let isTie ← target.args.foldlM (fun isTie a => do
    let isOld ← if a.isIdent then pure (← Gen.findDef a a).isSome else pure true
    if isOld && target.type.isSome then Gen.refuse .tupleRedefinition a
    if a.type.isSome then Gen.refuse .typedTupleElement n
    return isTie || isOld) false
  if isTie then
    return "std::tie(" ++ (← e.nodes target.args cx) ++ ") = " ++ value
  else
    return (← structuredBinding e target false cx) ++ " = " ++ value

/-! ### Values -/

/-- The value is a list without elements or a type, and the variable does not say the type. -/
def isUntypedEmptyList (target value : Node) : Bool :=
  value.isList && value.args.isEmpty && value.type.isNone &&
    match target.type with
    | none => true
    | some type => !((type.stripMutOrConst.map Node.isList).getD false)

/-- The code of an assigned value.  A type after an assigned lambda is its return type, and an empty
    list has elements of the type that its uses show. -/
def assignedValue (n target value : Node) (cx : Context) : Gen String := do
  if n.type.isSome && value.isCallOf "lambda" then
    if value.type.isSome then Gen.refuse .twoReturnTypes value
    let value ← Gen.setType value n.type
    emitLambda e value (← Gen.enterWith cx ({ · with inParameterList := true }))
  else
    let element ← if isUntypedEmptyList target value then e.element n cx else pure none
    match element with
    | some type => return "std::vector<" ++ type ++ ">()"
    | none => e.node value cx

/-! ### Names -/

/-- The assignment to a variable that holds an instance of a unique class.  The variable is not
    constant, so that it can be moved from. -/
def assignUnique (target : Node) (value : String) (cx : Context) : Gen String := do
  match target.type with
  | some type =>
    if !type.isOneOf ["mut", "const"] then
      return (← emitType e target (some type) cx) ++ " = " ++ value
  | none => pure ()
  Gen.withoutType target fun target => do
    let assign := (← e.node target cx) ++ " = " ++ value
    if (← Gen.context cx).inClassBody then return "decltype(" ++ value ++ ") " ++ assign
    else if (← Gen.findDef target target).isSome then return assign
    else return "auto " ++ assign

/-- The declaration of a variable of a given type with a value. -/
def declared (type target value : Node) (const typeCode code : String) : String :=
  let name := target.name?.getD ""
  let plain := const ++ typeCode ++ " " ++ name ++ " = " ++ code
  let direct := const ++ typeCode ++ " " ++ name ++ " \x7b " ++ code ++ " \x7d "
  if value.isBraces then plain
  else if type.isNamed "mut" || type.specifiers.any (·.isNamed "auto") then direct
  else if value.isNumber || value.isOneOf ["true", "false"] then
    direct ++ "; static_assert(std::is_convertible_v<decltype(" ++ code ++ "), decltype(" ++ name ++
      ")>)"
  else
    plain ++ "; static_assert(ceto::is_non_aggregate_init_and_if_convertible_then_non_narrowing_v<decltype(" ++
      code ++ "), std::remove_cvref_t<decltype(" ++ name ++ ")>>)"

/-- The assignment to a name with a declared type. -/
def assignTyped (target value type : Node) (constexpr code : String) (cx : Context) :
    Gen String := do
  let name := target.name?.getD ""
  if type.isOneOf ["using", "namespace"] then
    return type.name?.getD "" ++ " " ++ name ++ " = " ++ code
  if type.specifiers.any fun t => t.isTemplate && t.funcName? == some "template" then
    return (← emitType e target (some type) cx) ++ " " ++ name ++ " = " ++ code
  let inClass := (← Gen.context cx).inClassBody
  let (const, typeCode) ←
    if type.isOneOf ["mut", "const"] then
      if inClass then Gen.refuseBare (.constField name (type.name?.getD ""))
      else pure ("", if type.isNamed "const" then "const auto" else "auto")
    else if inClass then pure ("", ← emitType e target (some type) cx)
    else declarationType e target cx
  return declared type target value (constexpr ++ const) typeCode code

/-- The assignment to a name without a declared type. -/
def assignUntyped (n target : Node) (constexpr code : String) (cx : Context) : Gen String := do
  let name := target.name?.getD ""
  let assign := " ".intercalate [name, n.op?.getD "", code]
  let context ← Gen.context cx
  let declaration := "const auto " ++ assign
  match ← Gen.findDef n target with
  | none =>
    if context.inClassBody then
      return constexpr ++ "decltype(" ++ code ++ ") " ++ name ++ " = " ++ code
    else return constexpr ++ declaration
  | some d =>
    if d.sort == .field && context.inFunctionBody then return constexpr ++ declaration
    else if d.sort == .globalVariable then Gen.refuse (.globalReassigned name) target
    else return constexpr ++ assign

def emitAssignment : Gen String := do
  let n ← Gen.current n
  match n.args with
  | [target, value] =>
    if !target.isIdent && !target.isTuple then
      let left ← e.node target cx
      return left ++ " = " ++ (← e.node value cx)
    let context ← Gen.context cx
    let constexpr := if context.inFunctionBody || context.inClassBody then "" else "constexpr "
    let code ← assignedValue e n target value cx
    if target.isTuple then assignTuple e n target code cx
    else if ← isUniqueVariable target cx then
      return constexpr ++ (← assignUnique e target code cx)
    else
      match target.type with
      | some type => assignTyped e target value type constexpr code cx
      | none => assignUntyped n target constexpr code cx
  | _ => Gen.unforeseen

end Cppward.Emit
