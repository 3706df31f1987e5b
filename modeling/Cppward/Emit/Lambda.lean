import Cppward.Emit.Parameter
import Cppward.Emit.Self

namespace Cppward.Emit

open Analysis

/-!
# Lambdas

A lambda is written with its parameters, its return type and its captures.  Without a list of
captures it captures the local variables and parameters around it that it mentions.  A return type
that is called, `lambda (x, …): int(0)`, calls the lambda on the spot.
-/

variable (e : Emitter) (n : Node) (cx : Context)

/-- A parameter of a lambda.  In a type the parameter's own type is still an operand of a colon. -/
def lambdaParameter : Gen String := do
  let n ← Gen.current n
  let target ←
    if n.isIdent then pure n
    else if n.isAssign then Gen.refuse .lambdaDefault n
    else if n.isTyped then do
      let target ← Gen.setType (← Gen.need n.lhs?) n.rhs?
      if target.isIdent then pure target else Gen.refuse .lambdaArgumentInDecltype target
    else Gen.refuse .lambdaArgument n
  match ← parameterText e target cx with
  | some text => return text
  | none => return "const auto &" ++ target.name?.getD ""

/-! ### The return type -/

/-- The arguments of nested calls from the outside in, down to a node that applies no call. -/
def callChain : Node → List (List Node) × Node
  | ⟨info, kind, some f, args, type⟩ =>
    if f.isCall then
      let (more, last) := callChain f
      (args :: more, last)
    else ([], ⟨info, kind, some f, args, type⟩)
  | n => ([], n)

/-- The code of the call that a list of arguments makes. -/
def callText (args : List Node) : Gen String := do
  return "(" ++ (← e.nodes args cx) ++ ")"

/-- The return type of a lambda whose declared type ends in a call, and the call on the spot. -/
def calledType (before : List Node) (call : Node) (cx : Context) :
    Gen (String × String) := do
  let (chain, last) := callChain call
  let calls ← chain.mapM (callText e cx)
  let (types, calls) ←
    match last.func with
    | some f =>
      if f.isIdent && !f.isNamed "decltype" then
        pure (before ++ [f], calls ++ [← callText e cx last.args])
      else if f.isNamed "decltype" then pure (before ++ [last], calls)
      else pure (before, calls)
    | none => pure (before, calls)
  let type ← Gen.need (Node.ofSpecifiers? types)
  let n ← Gen.setType n (some type)
  return (" -> " ++ (← emitType e n (some type) cx), String.join calls)

/-- The return type of a lambda, and the call on the spot. -/
def lambdaType : Gen (String × String) := do
  match n.type with
  | none => return ("", "")
  | some type =>
    let specs := if type.isTyped then type.specifiers else [type]
    match specs.getLast? with
    | some last =>
      if last.isCall then calledType e n specs.dropLast last cx
      else return (" -> " ++ (← emitType e n (some type) cx), "")
    | none => Gen.unforeseen

/-! ### Captures -/

/-- The variable whose reference is captured by an item of a list of captures. -/
def referenced? : Option Node :=
  if n.isUnary && n.op? == some "&" then
    match n.args with
    | [v] => if v.isIdent && v.type.isNone then some v else none
    | _ => none
  else none

/-- The code of one item of a list of captures, and whether the item makes `this` visible. -/
def captureItem (n : Node) : Gen (String × Bool) := do
  if n.isAssign then
    let target ← Gen.need n.lhs?
    let value ← Gen.need n.rhs?
    match referenced? target with
    | some v =>
      let code := "&" ++ (← e.node v cx)
      return (code ++ " = " ++ (← e.node value cx), v.isNamed "this")
    | none =>
      if target.isIdent && target.type.isNone then
        let code ← e.node target cx
        return (code ++ " = " ++ (← e.node value cx), false)
      else Gen.refuse .captureTarget n
  else
    match referenced? n with
    | some v => return ("&" ++ (← e.node v cx), v.isNamed "this")
    | none =>
      if n.isUnary && n.op? == some "*" && n.lhsName? == some "this" then Gen.unforeseen
      if !n.isIdent || n.type.isSome then Gen.refuse .captureItem n
      if n.isNamed "ref" then return ("&", true)
      if n.isNamed "val" then
        if (← Gen.findDef n n).isSome then Gen.refuse .captureVal n
        return ("=", false)
      return (← e.node n cx, false)

/-- A name that stands for a value: not one that is called or the name of a member. -/
def standsForValue (p : Program) (n : Node) : Bool :=
  n.isIdent &&
    match p.parent? n with
    | none => true
    | some holder =>
      if (holder.isCall || holder.isIndex || holder.isBracedCall || holder.isTemplate) &&
          holder.func.map Node.id == some n.id then false
      else !(holder.isAttribute && holder.rhs?.map Node.id == some n.id)

/-- The node with the label `n` is the node with the label `outer`, or is inside it; at most `fuel`
    levels are considered. -/
def isInside (p : Program) (outer : Nat) : (fuel : Nat) → Option Nat → Bool
  | 0, _ | _, none => false
  | fuel + 1, some n => n == outer || isInside p outer fuel (p.parents[n]?.join)

/-- Keeps the last of the nodes of each name, at the place of the first. -/
def lastOfEachName (ns : List Node) : List Node :=
  ns.foldl (fun acc n =>
    if acc.any fun m => m.name? == n.name? then
      acc.map fun m => if m.name? == n.name? then n else m
    else acc ++ [n]) []

def isCaptured (lambda n : Node) : Gen Bool := do
  if n.isNamed "self" then return true
  if ← Gen.parentIs n (·.isCallOfAny ["def", "lambda"]) then return false
  match ← Gen.findDef n n with
  | none => return false
  | some d =>
    let p ← Gen.program
    return (d.sort == .localVariable || d.sort == .parameter) &&
      !isInside p lambda.id (p.parents.size + 1) (some d.defined)

/-- The names that a lambda without a list of captures captures. -/
def impliedCaptures (lambda : Node) : Gen (List String) := do
  let p ← Gen.program
  let isClass (n : Node) : Bool := (n.func.map (·.isOneOf ["class", "struct"])).getD false
  let names := lastOfEachName (lambda.findAll (standsForValue p) isClass)
  return (← names.filterM (isCaptured lambda)).filterMap Node.name?

def captureText : Gen String := do
  let func ← Gen.need n.func
  if func.isIndex then
    let items ← func.args.mapM (captureItem e cx)
    if items.any Prod.snd then
      Gen.ensure (func.args.any (·.isNamed "ref"))
      let _ ← reachThis n
    return commas (items.map Prod.fst)
  else
    let outer ← Gen.need (← Gen.context cx).parent
    if !(← Gen.context outer).inFunctionBody then return ""
    let names ← impliedCaptures n
    if ← Gen.parentIs n fun h => h.isCall && h.func.map Node.id == some n.id then return "&"
    return commas (names.map fun name => name ++ " = ceto::default_capture(" ++ name ++ ")")

def emitLambda : Gen String := do
  let n ← Gen.current n
  let body ← Gen.need n.args.getLast?
  Gen.ensure body.isBlock
  let params ← n.args.dropLast.mapM (lambdaParameter e · cx)
  let inner ← Gen.enterWith cx ({ · with inFunctionBody := true })
  let (type, calls) ← lambdaType e n cx
  let captures ← captureText e n cx
  let code ← e.block body inner
  return "[" ++ captures ++ "](" ++ commas params ++ ")" ++ type ++ " \x7b\n" ++ code ++
    (← Gen.indent inner) ++ "\x7d" ++ calls

end Cppward.Emit
