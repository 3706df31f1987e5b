import Cppward.Analysis.Lookup
import Cppward.Node.Copy

namespace Cppward.Analysis

open Node (ofCall ident ofBinary make ofBlock)

/-!
# Safety of loops

A loop over a container must not change the container.  A loop over a variable may not mention that
variable in its body.  A loop over a data member is left as it is when nothing in its body can reach
the container; in all other cases the container is wrapped so that a reference to it is rejected
when the generated code is compiled.
-/

variable (p : Program) (l : Loop) (n : Node)

/-- A loop over a data member. -/
structure Loop where
  /-- The container. -/
  iterable : Node
  /-- The variable that runs through the container. -/
  target : Node
  /-- The scope of the loop. -/
  scope : Nat
  /-- The container is a data member of the object itself. -/
  overSelf : Bool
  /-- The container belongs to a local variable that does not stand for the object itself. -/
  overLocal : Bool := false
  /-- The local variables that the container may belong to. -/
  locals : List Nat := []

namespace Loop

/-- What the definitions of the owner of the container say, up to the first that is a parameter. -/
def withOwner (l : Loop) : List Definition → Loop
  | [] => l
  | d :: ds =>
    match d.sort with
    | .parameter => { l with overLocal := false }
    | .localVariable => withOwner { l with locals := l.locals ++ [d.defined] } ds
    | _ => withOwner l ds

/-- A use of the object itself that only reaches another data member than the container. -/
def isAcceptableSelf : Bool :=
  match p.parent? n with
  | none => false
  | some access =>
    let isCallee :=
      match p.parent? access with
      | some call => call.isCall && (call.func.map Node.id) == some access.id
      | none => false
    access.isAttribute && (access.lhs?.map Node.id) == some n.id && !isCallee &&
      access.rhsName?.isSome && l.iterable.rhsName?.isSome && access.rhsName? != l.iterable.rhsName?

/-- The words for the object itself. -/
def isSelfWord : Bool := n.isOneOf ["this", "self"]

/-- An enclosing loop over another data member of the object itself. -/
def isHarmlessLoop (d : Definition) (defining : Node) :
    Except Failure Bool := do
  if d.sort != .localVariable || !defining.isCallOf "for" then
    return false
  match defining.args.head? with
  | none => throw .unforeseen
  | some head =>
    match head.isBinary, head.rhs? with
    | true, some container =>
      match container.isAttribute, container.lhs? with
      | true, some owner => return owner.isNamed "self" && l.isAcceptableSelf p owner
      | _, _ => return false
    | _, _ => throw .unforeseen

/-- One of the definitions gives access to the object itself; `follow` looks at the names in them. -/
def throughDefinitions (p : Program) (l : Loop) (follow : Node → Except Failure Bool) :
    List Definition → Except Failure Bool
  | [] => return false
  | d :: ds => do
    if d.sort == .parameter then
      return true
    match p.node? d.defining with
    | none => throw .unforeseen
    | some defining =>
      if ← l.isHarmlessLoop p d defining then
        throughDefinitions p l follow ds
      else if defining.any fun m => isSelfWord m && !l.isAcceptableSelf p m then
        return true
      else if d.sort == .localVariable then
        if ← defining.anyM follow then return true else throughDefinitions p l follow ds
      else throughDefinitions p l follow ds

/-- The name `n` might give access to the container.  No more than `fuel` definitions are
    followed one from another. -/
def mayAlias (p : Program) (l : Loop) : (fuel : Nat) → Node → Except Failure Bool
  | 0, _ => throw .unforeseen
  | fuel + 1, n => do
    if !n.isIdent || l.target.name? == n.name? then
      return false
    if isSelfWord n && !l.overLocal then
      return !(l.overSelf && l.isAcceptableSelf p n)
    if !l.overSelf && !l.overLocal then
      return (p.findDef l.scope n).isSome
    match p.findDefs l.scope n with
    | none => throw .unforeseen
    | some definitions =>
      if l.overSelf then
        l.throughDefinitions p (mayAlias p l fuel) definitions
      else
        return definitions.any fun d => l.locals.any fun x =>
          p.tree.comesBefore d.defined x == some true

end Loop

/-- A container wrapped in a lambda that is called on the spot and refuses references. -/
def banReferences (container copy : Node) : Node :=
  let overDecltype := ofCall (ident "overparenthesized_decltype") [copy]
  let isReference := ofBinary .scope "::" (ident "std")
    (make .template (some (ident "is_reference_v")) [overDecltype])
  let check := ofCall (ident "static_assert") [Node.ofUnary "not" isReference]
  let result := ofBinary (.clause false) ":" (ident "return") container
  let lambda := ofCall
    (make .index (some (ident "lambda")) [ident "ref"]) [ofBlock [check, result]]
  let decltype := ofCall (ident "decltype") [ident "auto"]
  ofCall (ofBinary .typed ":" lambda decltype) []

/-- The scopes and holders that a wrapped container and the copy in it get. -/
def linkWrapped (p : Program) (iterable copy wrapped : Node) : Program :=
  let scope := p.scopeOf? iterable
  let p := (p.setScope copy scope).setScope wrapped scope
  let p := p.setParent wrapped (p.parent? iterable)
  (p.setParent iterable (some wrapped)).setParent copy (some wrapped)

/-- Wraps the container of a loop, whose head is `head`. -/
def wrapIterable (head target iterable : Node) : Build Node := do
  let copy ← Build.adopt iterable.copy.unlabel
  let wrapped ← Build.adopt (banReferences iterable copy)
  modify (linkWrapped · iterable copy wrapped)
  let head := { head with args := [target, wrapped] }
  modify (·.update head)
  return head

/-- The head of a loop: `variable in container`, as an argument of a loop with one body. -/
def loopBody? : Option (Node × Node) := do
  let loop ← p.parent? n
  if n.isBinary && n.op? == some "in" && loop.funcName? == some "for" then
    match loop.args with
    | [_, body] => if body.isBlock then some (loop, body) else none
    | _ => none
  else none

def checkLoop (head loop body : Node) : Build Node := do
  let p ← get
  match head.args with
  | [target, iterable] =>
    if iterable.isIdent then
      if body.any fun n => n.name? == iterable.name? then
        throw (.analysis .iterableInBody (some (.ofNode iterable)))
      return head
    if iterable.isAttribute && (iterable.lhs?.map Node.isIdent).getD false then
      let owner ← Build.need iterable.lhs?
      let scope ← Build.need (p.scopeOf? loop)
      let overSelf := owner.isNamed "self"
      let l : Loop := { iterable, target, scope, overSelf, overLocal := !overSelf }
      let l ← if overSelf then pure l else l.withOwner <$> Build.need (p.findDefs scope owner)
      if !(← body.anyM (l.mayAlias p (p.nodes.size + 1))) then
        return head
    wrapIterable head target iterable
  | _ => Build.unforeseen

/-- A branch that is always taken and whose code is not checked. -/
def unsafeBranch (statements : List Node) : Node :=
  ofCall (ident "if")
    [Node.ofDigits "1", ofBlock (ofCall (ident "unsafe") [] :: statements)]

/-- Turns `unsafe(...)` with an argument into a branch. -/
def expandUnsafe : Build Node := do
  if !n.isCallOf "unsafe" || n.args.isEmpty then
    return n
  if (((← get).parent? n).map Node.isModule).getD false then
    throw (.analysis .unsafeModule (some (.ofNode n)))
  match n.args with
  | [arg] => Build.adopt (unsafeBranch (if arg.isBlock then arg.args else [arg]))
  | _ => throw (.analysis .unsafeArity (some (.ofNode n)))

/-- Checks a tree down to depth `depth`. -/
def checkSafetyTo : (depth : Nat) → Node → Build Node
  | 0, n => return n
  | depth + 1, n => do
    match loopBody? (← get) n with
    | some (loop, body) => checkLoop n loop body
    | none =>
      let args ← n.args.mapM (checkSafetyTo depth)
      modify fun p => p.update { p.current n with args := args.map p.current }
      let func ← n.func.mapM (checkSafetyTo depth)
      modify fun p => p.update { p.current n with func := func.map p.current }
      expandUnsafe ((← get).current n)

def checkSafety : Build Unit := do
  let tree := (← get).tree
  let _ ← checkSafetyTo tree.size tree

end Cppward.Analysis
