import Cppward.Emit.Generator

namespace Cppward.Emit

/-!
# Branches

An `if` that is not a statement of its own is a value: the last statement of each branch is what is
returned.
-/

variable (e : Emitter) (n : Node) (cx : Context)

structure Branches where
  condition : Node
  body : Node
  elifs : List (Node × Node) := []
  otherwise : Option Node := none

namespace Branches

/-- The pairs of conditions and blocks after `elif`. -/
def elifsOf? : List Node → Option (List (Node × Node))
  | [] => some []
  | head :: block :: rest =>
    if head.isTyped && head.lhsName? == some "elif" then do
      let condition ← head.rhs?
      return (condition, block) :: (← elifsOf? rest)
    else none
  | [_] => none

/-- The branches that the arguments of an `if` describe. -/
def ofArgs? : List Node → Option Branches
  | condition :: body :: rest =>
    if !body.isBlock then none
    else
      match rest.reverse with
      | [] => some { condition, body }
      | [_] => none
      | last :: word :: front =>
        if word.isNamed "else" then do
          if !last.isBlock then none
          return { condition, body, elifs := ← elifsOf? front.reverse, otherwise := some last }
        else do
          return { condition, body, elifs := ← elifsOf? rest }
  | _ => none

end Branches

/-! ### Branches as values -/

/-- Lets the blocks of an `if` return the values of their last statements.  A block that ends in a
    `throw` stays as it is. -/
def returnLastStatements : Gen Unit :=
  (n.args.filter Node.isBlock).forM fun block => do
    let block ← Gen.current block
    let last ← Gen.need block.args.getLast?
    if !last.isCallOf "throw" then
      let result ← Gen.adopt (Node.ofBinary (.clause false) ":" (Node.ident "return") last)
      Gen.modifyProgram fun p =>
        ((p.setParent last (some result)).setParent result (some block)).update
          { block with args := block.args.dropLast ++ [result] }

/-! ### Branches without a scope -/

/-- The variables that an `if` without a scope would declare in one of its blocks. -/
def declaredIn (block : Node) : Gen (List String) := do
  (block.findAll Node.isAssign Node.isDefinition).foldlM (fun names assign => do
    let isNew ←
      match assign.lhs? with
      | some target =>
        if target.isIdent && target.type.isNone then pure (← Gen.findDef assign target).isNone
        else pure false
      | none => Gen.unforeseen
    if !isNew then Gen.refuse .noscopeAssign assign
    let name ← Gen.need assign.lhsName?
    if names.contains name then return names
    let _ ← e.node (← Gen.need assign.rhs?) cx
    return names ++ [name]) []

/-- An `if` quoted in a message. -/
def ifText : Gen String := do
  let n ← Gen.current n
  return (n.func.map Node.text).getD "" ++ "(" ++ ",".intercalate (n.args.map Node.text) ++ ")"

/-- Refuses a program, and points at an `if`. -/
def refuseIf {α : Type} (fault : Fault) (n : Node) : Gen α := do
  throw (.emission fault (some ⟨← ifText n, none⟩))

/-- The conditions under which an `if` needs no scope.  Only branches that declare nothing are
    provided for. -/
def checkNoscope (b : Branches) (isValue : Bool) (cx : Context) :
    Gen Unit := do
  if isValue || !(← Gen.context cx).inFunctionBody then Gen.refuse .noscopeExpression n
  match b.otherwise with
  | none => Gen.refuse .noscopeWithoutElse n
  | some otherwise =>
    let blocks := b.body :: otherwise :: b.elifs.map Prod.snd
    let names ← blocks.mapM (declaredIn e cx)
    let first := names.headD []
    if names.all fun ns => ns.all first.contains && first.all ns.contains then
      Gen.ensure first.isEmpty
    else refuseIf .noscopeUnbalanced n

/-! ### Emission -/

/-- How an `if` of some kind is written. -/
structure Wording where
  start : String := "if ("
  opening : String := ") \x7b\n"
  elif : String := "\x7d else if ("
  otherwise : String := "\x7d else \x7b\n"
  closing : String := "\x7d"

def Wording.ofKind : Option String → Wording
  | some "preprocessor" =>
    { start := "#if ", opening := "\n", elif := "#elif ", otherwise := "#else\n",
      closing := "#endif\n" }
  | some "constexpr" => { start := "if constexpr (" }
  | some "consteval" => { start := "if consteval (" }
  | _ => {}

def emitIf : Gen String := do
  let n ← Gen.current n
  let isValue := !(← Gen.parentIs n Node.isBlock)
  if isValue then
    if !(n.findAll Node.isReturn Node.isDefinition).isEmpty then Gen.refuse .returnInIf n
    returnLastStatements n
  let n ← Gen.current n
  let b ← Gen.need (Branches.ofArgs? n.args)
  let kind ←
    match n.type with
    | none => pure none
    | some type =>
      match type.name? with
      | some kind => pure (some kind)
      | none => Gen.refuse .ifType n
  if kind == some "noscope" then checkNoscope e n b isValue cx
  let isOneLiner := n.kind == .call true
  if b.condition.isNamedArgument && !isOneLiner then Gen.refuse .unparenthesizedAssign b.condition
  let w := Wording.ofKind kind
  let indent ← Gen.indent cx
  let condition ← e.node b.condition cx
  let body ← e.block b.body (← Gen.enter cx)
  let elifs ← b.elifs.mapM fun (condition, block) => do
    let condition ← e.node condition (← Gen.enter cx)
    let code ← e.block block (← Gen.enter cx)
    return indent ++ w.elif ++ condition ++ w.opening ++ code
  let otherwise ←
    match b.otherwise with
    | none => pure ""
    | some block => pure (indent ++ w.otherwise ++ (← e.block block (← Gen.enter cx)))
  let code := w.start ++ condition ++ w.opening ++ body ++ String.join elifs ++ otherwise ++ indent ++
    w.closing
  if !isValue then return code ++ "\n"
  match kind with
  | some kind => refuseIf (.typedIfExpression kind) n
  | none =>
    let capture := if (← Gen.context cx).inFunctionBody then "&" else ""
    return "[" ++ capture ++ "]() \x7b" ++ code ++ "\x7d()" ++ "\n"

def emitWhile : Gen String := do
  let n ← Gen.current n
  match n.args with
  | [condition, block] =>
    if !block.isBlock then Gen.refuse .whileBlock block
    let condition ← e.node condition (← Gen.enter cx)
    let code ← e.block block (← Gen.enter cx)
    return "while (" ++ condition ++ ") \x7b" ++ code ++ (← Gen.indent cx) ++ "\x7d\n"
  | _ => Gen.refuse .whileArity n

end Cppward.Emit
