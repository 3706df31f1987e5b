import Cppward.Emit.Parameter
import Cppward.Emit.Self

namespace Cppward.Emit

open Analysis

/-!
# Functions and methods

A function whose parameters have no types is a template.  Its return type is deduced unless it is
declared, and methods are constant unless they are declared `mut`.
-/

variable (e : Emitter) (n : Node) (cx : Context)

/-- The name of the class in whose body a function stands, if it does. -/
def owner? : Gen (Option Node) := do
  let holder ← Gen.parent n
  let block ←
    match holder with
    | some h => if h.isAssign then Gen.parent h else pure (some h)
    | none => pure none
  match block with
  | some b =>
    if !b.isBlock then return none
    match ← Gen.parent b with
    | some c =>
      if !c.isCallOfAny ["class", "struct"] then return none
      let head ← Gen.need c.args.head?
      let name ← if head.isCall then Gen.need head.func else pure head
      Gen.ensure (name.isIdent || name.isTemplate)
      return some name
    | none => return none
  | none => return none

/-- The code of a class name with its template arguments. -/
def templateName : Gen String := do
  if n.isTemplate then
    return (← Gen.need n.funcName?) ++ "<" ++ (← e.nodes n.args cx) ++ ">"
  else Gen.need n.name?

/-- The code of the operator in `operator("+")`. -/
def operatorName? : Option String :=
  if n.isCallOf "operator" then
    match n.args with
    | [⟨_, .str text _ _, _, _, _⟩] => some ("operator" ++ text)
    | _ => none
  else none

/-- The statements of a function; a variable `self` is defined if the function needs one. -/
def emitBody (definition block : Node) (cx : Context) : Gen String := do
  let needsSelf ← reachThis definition
  let inner ← Gen.enterWith cx ({ · with inFunctionBody := true })
  let code ← e.block block inner
  if needsSelf then
    return (← Gen.indent inner) ++ "const auto self = ceto::shared_from(this);\n" ++ code
  else return code

/-! ### Specifiers -/

/-- What the specifiers of a function's name say. -/
structure Marks where
  /-- `mut` or `const`. -/
  constness : Option Node := none
  isOverride : Bool := false
  isFinal : Bool := false
  isNoinline : Bool := false
  /-- The other specifiers. -/
  rest : List Node := []

/-- The only specifier with a name, if there is one; two of them are refused. -/
def single (specs : List Node) (name : String) (fault : Fault) (n : Node) : Gen Bool := do
  match specs.filter (·.isNamed name) with
  | [] => return false
  | [_] => return true
  | _ => Gen.refuse fault n

/-- What the specifiers of the name of the function `n` say. -/
def Marks.ofSpecifiers (specs : List Node) (isMethod : Bool) : Gen Marks := do
  let consts := specs.filter Node.isMutOrConst
  if consts.length > 1 then Gen.refuse .tooManyMutConst n
  if let some mark := consts.head? then
    if !isMethod then Gen.refuse .mutConstOutsideMethod mark
  let isOverride ← single specs "override" .tooManyOverrides n
  if isOverride && !isMethod then Gen.refuse .overrideOutsideMethod n
  let isFinal ← single specs "final" .tooManyFinal n
  if isFinal && !isMethod then Gen.refuse .finalOutsideMethod n
  let isNoinline ← single specs "noinline" .tooManyNoinline n
  return {
    constness := consts.head?
    isOverride, isFinal, isNoinline
    rest := specs.filter fun t =>
      !t.isMutOrConst && !t.isOneOf ["override", "final", "noinline"] }

/-- The code of the specifiers that have no meaning of their own for a function. -/
def specifierText (name : Node) (marks : Marks) (isGeneric : Bool) (cx : Context) :
    Gen String := do
  match Node.ofSpecifiers? marks.rest with
  | none => return ""
  | some type =>
    let code ← emitType e name (some type) cx
    if marks.rest.any (·.isNamed "static") then
      if let some mark := marks.constness then Gen.refuse .mutConstStatic mark
    if isGeneric && type.any fun t => t.isTemplate && t.funcName? == some "template" then
      Gen.refuse .genericTemplate type
    return " " ++ code ++ " "

/-! ### Parameters and return types -/

/-- The code of a parameter, and the name of its type if that is a template parameter. -/
def functionParameter (isInterface : Bool) (cx : Context) (i : Nat) (n : Node) :
    Gen (String × Option String) := do
  if isInterface then
    if n.type.isNone then Gen.refuseBare .interfaceParameterType
    if !n.isIdent then Gen.refuseBare .interfaceParameterForm
  match ← parameterText e n cx with
  | some text => return (text, none)
  | none =>
    let type := "T" ++ toString (i + 1)
    return ("const " ++ type ++ "& " ++ (← Gen.need n.name?), some type)

def isBareReturn (p : Program) (n : Node) : Bool :=
  !n.isTyped && n.isReturn &&
    match p.parent? n with
    | some h => !(h.isTyped && h.lhs?.map Node.id == some n.id)
    | none => true

/-- The return type of a function that declares none: nothing is returned if there is no `return`, or
    one without a value. -/
def deducedReturn (p : Program) (statements : List Node) : String :=
  let returns := statements.flatMap (Node.findAll Node.isReturn Node.isDefinition)
  if returns.isEmpty || returns.any (isBareReturn p) then "void" else "auto"

def returnType (name : String) (statements : List Node)
    (isDestructor : Bool) (cx : Context) : Gen String := do
  match n.type with
  | some type =>
    let code ← emitType e n (some type) cx
    if isDestructor then Gen.refuseBare .destructorReturnType
    return code
  | none =>
    if name == "main" then return "int"
    else return deducedReturn (← Gen.program) statements

/-! ### Functions -/

/-- The code of a function without a body. -/
def emitDeclaration (owner : Option Node) (isGeneric isDestructor : Bool) (code : String)
    (cx : Context) : Gen String := do
  if isGeneric then Gen.refuse .genericDeclaration n
  match owner, ← Gen.parent n with
  | some name, some holder =>
    if !holder.isAssign then return code ++ ";\n\n"
    let value ← Gen.need holder.rhs?
    if n.type.isNone && !isDestructor then Gen.refuse .declarationReturnType n
    if (match value.kind with
        | .int digits _ => digits == "0"
        | _ => false) then
      match ← Gen.lookupClass cx (some name) with
      | none => Gen.refuse .pureVirtualOutsideClass name
      | some c =>
        if let some i := c.index then Gen.modifyClass i ({ · with isPureVirtual := true })
        return code
    else if value.isOneOf ["default", "delete"] then return code
    else Gen.refuse .declarationAssignment n
  | _, _ => return code ++ ";\n\n"

def emitFunction : Gen String := do
  let n ← Gen.current n
  let nameNode ← Gen.need n.args.head?
  let rest := n.args.drop 1
  let block? := rest.getLast?.filter Node.isBlock
  let args := if block?.isSome then rest.dropLast else rest
  let name ←
    match (operatorName? nameNode).orElse fun _ => nameNode.name? with
    | some name => pure name
    | none => Gen.refuseBare (.defName nameNode.text n.text)
  let owner ← owner? n
  let ownerName ← (owner.mapM (templateName e · cx) : Gen _)
  let isMethod := owner.isSome
  let isDestructor := isMethod && name == "destruct"
  if isDestructor && !args.isEmpty then Gen.refuse .destructorArguments n
  let specs := (nameNode.type.map Node.specifiers).getD []
  let isInterfaceMark (t : Node) : Bool := t.isCallOf "interface"
  let interfaces := specs.filter isInterfaceMark
  if interfaces.length > 1 then Gen.refuse .tooManyInterfaces n
  let isInterface := !interfaces.isEmpty
  if isInterface && n.type.isNone then Gen.refuseBare .interfaceReturnType
  Gen.ensure (isMethod || !isInterface)
  let params ← args.mapIdxM (functionParameter e isInterface cx)
  let typeNames := params.filterMap Prod.snd
  let marks ← Marks.ofSpecifiers n (specs.filter (!isInterfaceMark ·)) isMethod
  let isGeneric := !typeNames.isEmpty
  let specifier ← specifierText e nameNode marks isGeneric cx
  let isStatic := marks.rest.any (·.isNamed "static")
  let isConst := isMethod && !isStatic &&
    ((marks.constness.map (·.isNamed "const")).getD true)
  let isMain := name == "main"
  if isMain then
    if n.type.isSome || nameNode.type.isSome then Gen.refuse .mainTyped n
    if !(← Gen.parentIs n Node.isModule) then Gen.refuse .nestedMain n
    modify ({ · with hasMain := true })
  let result ← returnType e n name ((block?.map Node.args).getD []) isDestructor cx
  let template :=
    if isGeneric && !isMain then "template <" ++ commas (typeNames.map ("typename " ++ ·)) ++ ">\n"
    else ""
  let inline :=
    if marks.isNoinline || isInterface || block?.isNone || isGeneric || isMain then "" else "inline "
  let hasSpecifiers := specs.any (!isInterfaceMark ·)
  let override :=
    if marks.isOverride || isInterface && hasSpecifiers then " override" else ""
  let final := if marks.isFinal then " final" else ""
  let head :=
    if isDestructor then specifier ++ "~" ++ ownerName.getD "" ++ "()" ++ override ++ final
    else template ++ specifier ++ inline ++ "auto " ++ name ++ "(" ++ commas (params.map Prod.fst) ++
      ")" ++ (if isConst then " const" else "") ++ " -> " ++ result ++ override ++ final
  let indent ← Gen.indent cx
  match block? with
  | none => emitDeclaration n owner isGeneric isDestructor (indent ++ head) cx
  | some block =>
    let code ← emitBody e n block cx
    return indent ++ head ++ " \x7b\n" ++ code ++ indent ++ "\x7d\n\n"

end Cppward.Emit
