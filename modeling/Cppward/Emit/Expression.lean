import Cppward.Emit.Call
import Cppward.Emit.Literal

namespace Cppward.Emit

open Analysis

/-!
# Nodes

* `emitName`, `emitOperator`, `emitTemplate` — the remaining kinds of nodes,
* `emitNode` — any node,
* `emitter` — the parts of the generator, tied together.
-/

variable (e : Emitter) (n : Node) (cx : Context) (op : String)

/-! ### Names -/

/-- The node that holds a node is an operator of one of the given classes, and the node is its
    operand number `i`. -/
def isOperand (i : Nat) (classes : List Binary) : Gen Bool :=
  Gen.parentIs n fun h =>
    (h.binary?.map classes.contains).getD false && h.args[i]?.map Node.id == some n.id

/-- The node that holds a node is an operator of one of the given classes. -/
def isInOperator (classes : List Binary) : Gen Bool :=
  Gen.parentIs n fun h => (h.binary?.map classes.contains).getD false

def isField : Gen Bool := do
  return ((← Gen.findDef n n).map (·.sort == .field)).getD false

/-- The code of a name that has no special meaning. -/
def emitPlainName (name : String) (cx : Context) : Gen String := do
  if (← Gen.context cx).inFunctionBody then
    if !(← isOperand n 1 [.attribute, .scope, .arrow]) then
      if ← isField n then Gen.refuse (.fieldAccess name) n
  let pointer ←
    if ← isOperand n 0 [.attribute, .scope] then pure none else pointerText cx (some n)
  match pointer with
  | some (start, close) => return start ++ "const " ++ name ++ close
  | none =>
    if ← Gen.isLastUse n then
      if ← isUniqueVariable n cx then return "std::move(" ++ name ++ ")"
    return name

def emitName (name : String) (cx : Context) : Gen String := do
  match name with
  | "ptr" => Gen.refuse .pointerWord n
  | "ref" => Gen.refuse .referenceWord n
  | "None" => return "nullptr"
  | "True" => return "true"
  | "False" => return "false"
  | "..." => return "..."
  | "string" =>
    if ← isInOperator n [.attribute, .scope, .arrow] then emitPlainName n name cx
    else return "std::string"
  | name => emitPlainName n name cx

/-! ### Operators -/

/-- The code of a `return`.  The value that a lambda returns by itself is dropped if it has none. -/
def emitReturn (n value : Node) (isImplied : Bool) (cx : Context) : Gen String := do
  let code ← e.node value cx
  if !isImplied then return "return " ++ code
  let block ← Gen.need (← Gen.parent n)
  let lambda ← Gen.need (← Gen.parent block)
  match lambda.type with
  | some type =>
    if type.isNamed "void" then return code
    let test := "&& !std::is_void_v<" ++ (← emitType e lambda (some type) cx) ++ ">"
    return conditional code test
  | none => return conditional code ""
where
  /-- Returns a value unless it has the type `void`. -/
  conditional (code test : String) : String :=
    "if constexpr (!std::is_void_v<decltype(" ++ code ++ ")>" ++ test ++ ") \x7b return " ++ code ++
      "; \x7d else \x7b static_cast<void>(" ++ code ++ "); \x7d"

/-- The operator of the target language. -/
def operatorText : String :=
  match op with
  | "and" => "&&"
  | "or" => "||"
  | op => op

/-- A node that is an operand has to be put in parentheses, unless the operator it is an operand of
    passes the test. -/
def isNested (exempt : Node → Bool) : Gen Bool :=
  Gen.parentIs n fun h => (h.isBinary || h.isUnary) && !exempt h

/-- The code in parentheses if the node is an operand. -/
def nested (exempt : Node → Bool) (code : String) : Gen String := do
  return if ← isNested n exempt then "(" ++ code ++ ")" else code

def emitOperator (cls : Binary) (op : String) (cx : Context) :
    Gen String := do
  match n.args with
  | [lhs, rhs] =>
    match cls with
    | .typed => emitType e n (some n) cx
    | .clause isImplied =>
      if lhs.isNamed "return" then emitReturn e n rhs isImplied cx else Gen.unforeseen
    | .assign | .named => nested n Node.isClause (← emitAssignment e n cx)
    | .attribute => emitAttribute e n cx
    | _ =>
      if isComment n then
        let first ← Gen.need rhs.args.head?
        if rhs.args.length != 1 && !first.isStr then Gen.refuse .commentForm n
        Gen.unforeseen
      let left ← e.node lhs cx
      let right ← e.node rhs cx
      nested n (fun h => h.isScope || h.isArrow || h.isAttribute)
        (left ++ " " ++ operatorText op ++ " " ++ right)
  | _ => Gen.unforeseen

/-- The code of a prefix operator. -/
def emitUnary (arg : Node) (cx : Context) : Gen String := do
  if op == ":" then Gen.unforeseen
  let code ← e.node arg cx
  return if op == "not" then "!" ++ code else "(" ++ op ++ code ++ ")"

/-! ### Templates and indices -/

/-- The code of a template with arguments, or of an `include`. -/
def emitTemplate : Gen String := do
  let func ← Gen.need n.func
  if func.isNamed "include" then
    match n.args with
    | [header] =>
      let text := (Text.squeeze header.text.toList).filter fun c => c != '(' && c != ')'
      return "#include <" ++ String.ofList text ++ ">\n"
    | _ => Gen.refuse .includeArity n
  let args := "<" ++ ",".intercalate (← n.args.mapM (e.node · cx)) ++ ">"
  match ← pointerText cx (some func) with
  | some (start, close) => return start ++ "const " ++ func.name?.getD "" ++ args ++ close
  | none => return (← e.node func cx) ++ args

def emitIndex : Gen String := do
  if n.args.length > 1 then Gen.refuseBare .slicing
  let target ← e.node (← Gen.need n.func) cx
  let index ← e.node (← Gen.need n.args.head?) cx
  return "ceto::bounds_check(" ++ target ++ "," ++ index ++ ")"

def emitBracedCall : Gen String := do
  if (← Gen.lookupClass cx n.func).isSome then Gen.refuse .bracedClassCall n
  let func ← e.node (← Gen.need n.func) cx
  return func ++ braced (← e.nodes n.args cx)

/-! ### Any node -/

/-- The lambda around a typed name, if the name could be meant as its parameter; at most `fuel`
    levels are considered. -/
def mistakenLambda (p : Program) : (fuel : Nat) → Option Node → Option Node
  | 0, _ | _, none => none
  | fuel + 1, some n =>
    if n.isCallOf "lambda" then some n
    else if n.isCallOfAny ["def", "class", "sruct"] then none
    else if n.isBlock && n.args.length != 1 then none
    else mistakenLambda p fuel (p.parent? n)

/-- The code of a typed node that is part of a larger expression. -/
def emitTyped : Gen String := do
  if n.isIdent then
    let p ← Gen.program
    if !(← Gen.parentIs n Node.isTemplate) then
      if let some lambda := mistakenLambda p (p.nodes.size + 1) (p.parent? n) then
        Gen.refuse .lambdaArgumentsMistake lambda
  else if !n.isAttribute && !n.isTemplate then Gen.refuse .typedContext n
  emitType e n (some n) cx

/-- The code of a node, its declared type aside. -/
def emitUntyped : Gen String := do
  match n.kind with
  | .call _ => emitCall e n cx
  | .int .. | .float .. => return n.text
  | .name name => emitName n name cx
  | .binary cls op => emitOperator e n cls op cx
  | .list => emitList e n cx
  | .braces => emitBraces e n cx
  | .tuple => emitTuple e n cx
  | .index => emitIndex e n cx
  | .bracedCall => emitBracedCall e n cx
  | .unary op => emitUnary e op (← Gen.need n.args.head?) cx
  | .trailing op => return (← e.node (← Gen.need n.args.head?) cx) ++ op
  | .str text lead tail => emitString n text lead tail
  | .template => emitTemplate e n cx
  | _ => Gen.unforeseen

def emitNode : Gen String := do
  let n ← Gen.current n
  match n.type with
  | none => emitUntyped e n cx
  | some type =>
    if n.isCall then
      if !n.isCallOf "def" && !n.isLambda && !type.isMutOrConst then Gen.refuse .typedCall n
      emitUntyped e n cx
    else if n.isList then emitUntyped e n cx
    else emitTyped e n cx

/-- The parts of the generator, for calls nested at most `n` deep. -/
def emitter : Nat → Emitter
  | 0 => .exhausted
  | n + 1 =>
    let e := emitter n
    { node := emitNode e
      type := emitType e
      block := emitBlock e
      typeOf := typeOf e
      inferred := inferredType e
      element := elementType e }

end Cppward.Emit
