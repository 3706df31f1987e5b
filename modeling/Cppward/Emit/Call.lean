import Cppward.Emit.Attribute
import Cppward.Emit.Block
import Cppward.Emit.Parens

namespace Cppward.Emit

open Analysis

/-!
# Calls

A call is one of the constructs of the language, a new instance of a class, a call of a function, or
a call of a method.
-/

variable (e : Emitter) (n : Node) (name : String) (cx : Context)

/-! ### Constructs -/

def emitRequires : Gen String := do
  let block ← Gen.need n.args.getLast?
  Gen.ensure block.isBlock
  let params ← n.args.dropLast.mapM fun a => do
    match ← parameterText e a cx with
    | some text => return text
    | none => if a.isIdent then e.node a cx else Gen.unforeseen
  return "requires (" ++ commas params ++ ") \x7b" ++ (← e.block block cx) ++ "\x7d"

/-- The code of a cast to a class, or of the question whether the cast succeeds. -/
def emitInstanceCheck (isCheck : Bool) (cx : Context) : Gen String := do
  match n.args with
  | [value, type] =>
    let (const, name) :=
      match type.splitMutOrConst with
      | some (mark, rest) => (if mark.isNamed "mut" then "" else "const ", rest)
      | none => ("const ", some type)
    match name.bind Node.name? with
    | none => Gen.refuse .instanceClassForm n
    | some text =>
      let c ← Gen.need (← Gen.lookupClass cx name)
      if c.entry.isStruct || !c.entry.isConcrete then
        if c.entry.isConcrete then Gen.refuseBare .instanceTemplate
        else Gen.refuse .instanceNotClass n
      let cast := "std::dynamic_pointer_cast<" ++ const ++ text ++ ">(" ++ (← e.node value cx) ++ ")"
      return if isCheck then "(" ++ cast ++ " != nullptr)" else cast
  | _ => Gen.refuse .instanceArity n

def emitNamespace : Gen String := do
  match n.args.getLast? with
  | none => Gen.refuse .emptyNamespace n
  | some block =>
    if !block.isBlock then Gen.refuse .namespaceBlock n
    let name ←
      match n.args with
      | [_] => pure ""
      | [name, _] =>
        if !(name.isIdent || name.isScope || name.isAttribute) then Gen.refuse .namespaceName n
        else e.node name cx
      | _ => Gen.refuse .namespaceArity n
    let code ← e.block block (← Gen.enter cx)
    return "namespace " ++ name ++ " \x7b\n" ++ code ++ "\n\x7d"

/-- The code of a construct that is written as a call of `name`, if it is one. -/
def emitConstruct : Gen (Option String) := do
  match name with
  | "if" => return some (← emitIf e n cx)
  | "def" => return some (← emitFunction e n cx)
  | "operator" => return operatorName? n
  | "include" =>
    match n.args.head?.bind Node.name? with
    | some module => return some ("#include \"" ++ module ++ ".donotedit.autogenerated.h\"\n")
    | none => Gen.unforeseen
  | "throw" =>
    match n.args with
    | [value] => return some ("throw " ++ (← e.node value cx))
    | _ => Gen.refuse .throwArity n
  | "requires" => return some (← emitRequires e n cx)
  | "asinstance" => return some (← emitInstanceCheck e n false cx)
  | "isinstance" => return some (← emitInstanceCheck e n true cx)
  | "namespace" => return some (← emitNamespace e n cx)
  | "defmacro" => return some "\n"
  | "unsafe" =>
    Gen.ensure n.args.isEmpty
    if !(← Gen.parentIs n Node.isBlock) then Gen.refuse .unsafePlace n
    Gen.modifyContext cx ({ · with isUnsafe := true })
    return some "// unsafe"
  | "ceto_private_module_boundary" =>
    if !n.args.isEmpty then return none
    Gen.modifyContext cx ({ · with isUnsafe := false })
    return some "\n"
  | "overparenthesized_decltype" =>
    match n.args with
    | [value] => return some ("decltype((" ++ (← e.node value cx) ++ "))")
    | _ => return none
  | _ => return none

/-! ### Functions and instances -/

def emitInstance (c : ClassEntry) (name args : String) : Gen String := do
  let round := "(" ++ args ++ ")"
  let curly := if n.args.isEmpty then round else braced args
  if c.isStruct then return name ++ curly
  let made := if c.isConcrete then name else "decltype(" ++ name ++ curly ++ ")"
  let const := if ← makesConst n then "const " else ""
  let maker := if c.isUnique then "make_unique_propagate_const" else "make_shared_propagate_const"
  return "ceto::" ++ maker ++ "<" ++ const ++ made ++ ">" ++ round

/-- The functions that can be called anywhere although no definition is seen. -/
def knownFunctions : List String := ["decltype", "defined", "static_assert", "include"]

/-- The code of the arguments of a call by name.  The arguments of a static assertion are checked as
    in safe code. -/
def emitArguments : Gen String := do
  if name == "static_assert" then
    let isUnsafe := (← Gen.context cx).isUnsafe
    Gen.modifyContext cx ({ · with isUnsafe := false })
    let args ← e.nodes n.args cx
    Gen.modifyContext cx ({ · with isUnsafe })
    return args
  else e.nodes n.args cx

/-- The code of a call of a function by its name, or of a new instance of the class of that name. -/
def emitPlainCall : Gen String := do
  let args ← emitArguments e n name cx
  match ← Gen.lookupClass cx n.func with
  | some c => emitInstance n c.entry name args
  | none =>
    if !(← Gen.context cx).isUnsafe && !knownFunctions.contains name then
      let func ← Gen.need n.func
      let scope ← Gen.scopeOf n
      if ((← Gen.program).lookupFunction scope func).isNone &&
          ((← Gen.program).findDef scope func).isNone then
        Gen.refuse .unknownFunction n
    let round := "(" ++ args ++ ")"
    if name == "decltype" then
      Gen.modifyContext cx ({ · with inDecltype := true })
      return name ++ (if hasOuterDoubleParens round then args else round)
    return name ++ round

/-! ### Methods -/

/-- The methods whose results may point into their object. -/
def iteratorMethods : List String :=
  ["begin", "cbegin", "end", "cend", "rbegin", "rend", "crbegin", "crend", "data", "c_str", "find",
    "lower_bound", "upper_bound"]

/-- The last link of a chain of accesses that leans to the right. -/
def lastLink : Node → Node
  | ⟨info, kind, func, args, type⟩ =>
    match kind, args with
    | .binary .attribute _, [_, rhs] | .binary .scope _, [_, rhs] => lastLink rhs
    | _, _ => ⟨info, kind, func, args, type⟩

/-- The first operand of nested operators. -/
def firstOperand : Node → Node
  | ⟨info, kind, func, args, type⟩ =>
    match kind, args with
    | .binary _ _, [lhs, _] => firstOperand lhs
    | _, _ => ⟨info, kind, func, args, type⟩

/-- What a method is called on: the accesses without the name of the method. -/
def methodTarget (method : Node) : Gen Node := do
  let access ← Gen.need (← Gen.parent method)
  Gen.ensure (access.isBinary && access.rhs?.map Node.id == some method.id)
  let holder ← Gen.need (← Gen.parent access)
  let target ← Gen.need access.lhs?
  if holder.args.any (·.id == access.id) then
    let others := holder.args.filter (·.id != access.id)
    return Node.make (.binary .attribute ".") none (others ++ [target])
  else
    Gen.ensure (holder.func.map Node.id == some access.id)
    return target

/-- A call of `append`, as it is written for lists and for other containers. -/
def emitAppend (n target value : Node) (cx : Context) : Gen String := do
  let isList ←
    if target.isList then pure true
    else do
      let defs ← (← Gen.findDefs n target).mapM fun d => Gen.nodeOf d.defining
      pure (defs.any fun d => d.isAssign && (d.rhs?.map Node.isList).getD false)
  let target ← e.node target cx
  let value ← e.node value cx
  return if isList then "(" ++ target ++ ").push_back(" ++ value ++ ")"
    else "ceto::append_or_push_back(" ++ target ++ ", " ++ value ++ ")"

/-- The variable that something is appended to is known. -/
def appendsToVariable (n first : Node) : Gen Bool := do
  if first.isOneOf ["this", "self"] then return true
  return (← Gen.findDef n first).isSome

/-- A call whose code is complete, or the code of what is called. -/
inductive MethodCode where
  | call (code : String)
  | target (code : String)

/-- The code of what a call of a method calls. -/
def emitMethod (n func method : Node) (cx : Context) : Gen MethodCode := do
  match method.isNamed "operator", n.args with
  | true, [⟨_, .str text _ _, _, _, _⟩] =>
    let target ← methodTarget method
    return .call ("(*ceto::mad(" ++ (← e.node target cx) ++ ")).operator" ++ text)
  | _, _ =>
    match ← Gen.parent method with
    | none => return .target (← e.node func cx)
    | some access =>
      if access.isScope || access.isArrow then return .target (← e.node func cx)
      let target ← methodTarget method
      match func.isAttribute && method.isNamed "append", n.args with
      | true, [value] =>
        if ← appendsToVariable n (firstOperand (← Gen.need func.lhs?)) then
          return .call (← emitAppend e n target value cx)
      | _, _ => pure ()
      return .target (← emitAttribute e (Node.ofBinary .attribute "." target method) cx)

/-- The code of a call of anything but a name. -/
def emitMethodCall : Gen String := do
  let func ← Gen.need n.func
  let isUnsafe := (← Gen.context cx).isUnsafe
  if func.isAttribute || func.isScope then
    let method := lastLink func
    match ← emitMethod e n func method cx with
    | .call code => return code
    | .target code =>
      let call := code ++ "(" ++ (← e.nodes n.args cx) ++ ")"
      return if !isUnsafe && method.isOneOf iteratorMethods then
        "CETO_BAN_RAW_DEREFERENCABLE(" ++ call ++ ")"
      else call
  else
    let code ← e.node func cx
    return code ++ "(" ++ (← e.nodes n.args cx) ++ ")"

def emitCall : Gen String := do
  if n.isLambda then
    emitLambda e n (← Gen.enterWith cx ({ · with inParameterList := true }))
  else
    match n.funcName? with
    | none => emitMethodCall e n cx
    | some name =>
      match ← emitConstruct e n name cx with
      | some code => return code
      | none => emitPlainCall e n name cx

end Cppward.Emit
