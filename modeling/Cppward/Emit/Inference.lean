import Cppward.Emit.Lambda

namespace Cppward.Emit

open Analysis

/-!
# Types of expressions

The element type of an empty list is found by looking at how the list is used later.  What is
written is code that lets the compiler of the target language compute the type: the expression
itself under `decltype`, with variables replaced by what they were defined as.
-/

variable (e : Emitter) (n : Node) (cx : Context)

/-! ### Constant instances -/

/-- A new instance of a class is constant unless it, or the variable that it is assigned to, is
    declared `mut`. -/
def makesConst : Gen Bool := do
  match n.type with
  | some type => return !type.isNamed "mut"
  | none =>
    match ← Gen.parent n with
    | some holder =>
      match holder.isAssign, holder.lhs?.bind Node.type with
      | true, some type =>
        if type.isTyped then
          let specs := type.specifiers
          return !((specs.head?.map (·.isNamed "mut")).getD false ||
            (specs.getLast?.map (·.isNamed "mut")).getD false)
        else return !type.isNamed "mut"
      | _, _ => return true
    | none => return true

/-! ### Lists -/

/-- The value that shows the element type of a list, where `use` is a use of the list and `at_` a node
    around it: what is appended to it, or assigned to one of its elements. -/
def elementShown (p : Program) (use at_ : Node) : List Node :=
  let appended :=
    if at_.isAttribute && at_.lhs?.map Node.id == some use.id && at_.rhsName? == some "append" then
      match p.parent? at_ with
      | some call => if call.isCall && call.args.length == 1 then call.args else []
      | none => []
    else []
  let stored :=
    match at_.isAssign, at_.args with
    | true, [target, value] =>
      if target.isIndex && target.func.map Node.id == some use.id then [value] else []
    | _, _ => []
  appended ++ stored

/-- The element type that a use of a list shows, looked for from `at_` outwards up to a block, at
    most `fuel` levels. -/
def elementAround (e : Emitter) (use : Node) (cx : Context) :
    (fuel : Nat) → Option Node → Gen (Option String)
  | 0, _ | _, none => Gen.unforeseen
  | fuel + 1, some at_ => do
    if at_.isBlock then return none
    match elementShown (← Gen.program) use at_ with
    | [] => elementAround e use cx fuel (← Gen.parent at_)
    | shown => return (← shown.mapM (e.typeOf · cx)).getLast?

/-- The element type of a list that the first telling use of it shows. -/
def elementFromUses (e : Emitter) (cx : Context) : List Node → Gen (Option String)
  | [] => return none
  | use :: uses => do
    let p ← Gen.program
    match ← elementAround e use cx (p.nodes.size + 1) (p.parent? use) with
    | some type => return some type
    | none => elementFromUses e cx uses

/-- The element type of the list that an assignment assigns. -/
def elementType (assign : Node) (cx : Context) : Gen (Option String) := do
  let assign ← Gen.current assign
  match assign.rhs?.bind fun v => if v.isList then v.args.head? else none with
  | some first => return some (← e.typeOf first cx)
  | none =>
    match (← Gen.program).findUses assign with
    | .ok uses => elementFromUses e cx uses
    | .error failure => throw failure

/-- The element type of an indexed variable, from the first of its definitions that tells. -/
def elementFromDefs (e : Emitter) (cx : Context) : List Definition → Gen (Option String)
  | [] => return none
  | d :: ds => do
    let defining ← Gen.nodeOf d.defining
    match ← if defining.isAssign then e.element defining cx else pure none with
    | some type => return some type
    | none => elementFromDefs e cx ds

def indexedType : Gen String := do
  let func ← Gen.need n.func
  match ← elementFromDefs e cx (← Gen.findDefs n func) with
  | some type => return type
  | none => return "std::remove_cvref_t<" ++ (← e.typeOf func cx) ++ ">::value_type"

def listType : Gen String := do
  return "std::vector<" ++ (← e.typeOf (← Gen.need n.args.head?) cx) ++ ">"

/-! ### Variables -/

/-- What a definition says about the type of a variable. -/
inductive DefinedType where
  /-- The type is declared. -/
  | declared (type : Node)
  /-- The type is that of the value. -/
  | inferred
  /-- Nothing is said. -/
  | silent
  deriving Inhabited

/-- What the declared type of a defined name says; `isPlain` tells that the name is not assigned a
    value there. -/
def definedType (defined : Node) (isPlain : Bool) : DefinedType :=
  match defined.type with
  | none => .inferred
  | some type =>
    if type.isOneOf ["mut", "const", "auto", "weak", "shared", "unique"] then
      if isPlain then .silent else .inferred
    else if type.isTyped then
      let specs := type.specifiers
      if specs.any (·.isNamed "auto") then
        if isPlain then .silent else .inferred
      else if (specs.head?.map (·.isNamed "mut")).getD false then
        (Node.ofSpecifiers? (specs.drop 1)).elim .silent .declared
      else if (specs.getLast?.map (·.isNamed "mut")).getD false then
        (Node.ofSpecifiers? specs.dropLast).elim .silent .declared
      else .inferred
    else .declared type

/-- The first declared type among definitions, or else the last definition that is not silent. -/
def tellingDef : List (Node × Node) → Option (Node × Node) → (Node × Node) ⊕ Option (Node × Node)
  | [], last => .inr last
  | (defined, defining) :: rest, last =>
    match definedType defined defining.isIdent with
    | .declared type => .inl (defined, type)
    | .silent => tellingDef rest last
    | .inferred => tellingDef rest (some (defined, defining))

def typeFromDef (defined defining : Node) (cx : Context) : Gen (Bool × String) := do
  if defining.isAssign then
    let value ← Gen.need defining.rhs?
    if value.isList && value.args.isEmpty && value.type.isNone then
      let element ← Gen.need (← e.element defining cx)
      return (false, "std::vector<" ++ element ++ ">")
    else e.inferred value cx
  else if defining.isCallOf "for" then
    match defining.args.head? with
    | some head =>
      if head.isBinary && head.lhs?.map Node.id == some defined.id then
        let range ← e.typeOf (← Gen.need head.rhs?) cx
        return (false, "std::ranges::range_value_t<" ++ range ++ ">")
      else Gen.unforeseen
    | none => Gen.unforeseen
  else return (true, defined.name?.getD "")

def variableType : Gen (Bool × String) := do
  let defs ← (← Gen.findDefs n n).mapM fun d => do
    return (← Gen.nodeOf d.defined, ← Gen.nodeOf d.defining)
  match tellingDef defs none with
  | .inl (defined, type) => return (false, ← emitType e defined (some type) cx)
  | .inr (some (defined, defining)) => typeFromDef e defined defining cx
  | .inr none => return (true, n.name?.getD "")

/-! ### Expressions -/

/-- An expression that has the type of `n`. -/
def valueOfType (n : Node) : Gen String := do
  let (isExpression, code) ← e.inferred n cx
  return if isExpression then code else "std::declval<" ++ code ++ ">()"

def callType : Gen (Bool × String) := do
  let func ← Gen.need n.func
  if func.isNamed "lambda" then
    return (true, ← emitLambda e n cx)
  match ← Gen.lookupClass cx n.func with
  | some c =>
    let args ← n.args.mapM (valueOfType e cx)
    let made := "decltype(" ++ func.name?.getD "" ++
      (if args.isEmpty then "()" else braced (commas args)) ++ ")"
    let const := if ← makesConst n then "const " else ""
    return (false,
      if c.entry.isStruct then made
      else if c.entry.isUnique then "std::unique_ptr<" ++ const ++ made ++ ">"
      else "std::shared_ptr<" ++ const ++ made ++ ">")
  | none =>
    let code ← e.node func cx
    let args ← n.args.mapM (valueOfType e cx)
    return (false, "std::remove_cvref_t<decltype(" ++ code ++ "(" ++ commas args ++ "))>")

def operatorType (n lhs rhs : Node) (cx : Context) : Gen (Bool × String) := do
  let left ← valueOfType e cx lhs
  if n.isAttribute then
    return (true, "(*ceto::mad(" ++ left ++ "))." ++ (← e.node rhs cx))
  else if n.isArrow then
    return (true, left ++ "->" ++ (← e.node rhs cx))
  else
    return (true, left ++ n.op?.getD "" ++ (← valueOfType e cx rhs))

/-- Code that stands for the type of an expression, and whether it is itself an expression whose type
    is meant. -/
def inferredType : Gen (Bool × String) := do
  let n ← Gen.current n
  if n.isNumber || n.isStr then return (true, ← e.node n cx)
  else if n.isBinary then
    match n.args with
    | [lhs, rhs] => operatorType e n lhs rhs cx
    | _ => Gen.unforeseen
  else if n.isCall then callType e n cx
  else if n.isList then return (false, ← listType e n cx)
  else if n.isIndex then return (false, ← indexedType e n cx)
  else if n.isTuple then
    return (true, "std::make_tuple(" ++ commas (← n.args.mapM (valueOfType e cx)) ++ ")")
  else if n.isIdent then variableType e n cx
  else Gen.unforeseen

def typeOf : Gen String := do
  let n ← Gen.current n
  if n.isIndex then indexedType e n cx
  else if n.isList then listType e n cx
  else
    let (isExpression, code) ← e.inferred n cx
    return if isExpression then "decltype(" ++ code ++ ")" else code

end Cppward.Emit
