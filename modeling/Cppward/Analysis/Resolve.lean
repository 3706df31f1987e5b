import Cppward.Analysis.Lookup

namespace Cppward.Analysis

/-!
# Assigning scopes

Every node belongs to a scope, in general that of the node which holds it.  Definitions, branches
and loops open scopes of their own.  On the way, the variables and functions that a program defines
are entered into the scopes.
-/

mutual
/-- The name below template arguments and calls in the name of a definition. -/
def definedName : Node → Node
  | ⟨info, kind, func, args, type⟩ =>
    let whole : Node := ⟨info, kind, func, args, type⟩
    match kind with
    | .template | .call _ => definedNameOption whole func
    | _ => whole

def definedNameOption (whole : Node) : Option Node → Node
  | none => whole
  | some f => definedName f
end

/-- Gives a node the scope of its holder unless it has one already. -/
def inheritScope (n : Node) : Build Nat := do
  let p ← get
  match p.scopeOf? n with
  | some s => return s
  | none =>
    let holder ← Build.need (p.parent? n)
    let s ← Build.need (p.scopeOf? holder)
    modify (·.setScope n (some s))
    return s

/-- Enters the function that a definition defines. -/
def enterFunction (scope : Nat) (definition : Node) : Build Unit := do
  let first ← Build.need definition.args.head?
  let nameNode := definedName first
  let name ← Build.need nameNode.name?
  modify (·.addFunction scope { name, nameNode := nameNode.id, definition := definition.id })

/-- Opens the scope of the argument at position `i` of a call. -/
def openScope (call : Node) (scope : Nat) (inner : Option Nat) (i : Nat) (a : Node) : Build Unit := do
  match inner with
  | none =>
    if a.isBlock then
      let p ← get
      let before := if i == 0 then none else call.args[i - 1]?.bind p.scopeOf?
      let s ← Build.enter (before.getD scope)
      modify (·.setScope a (some s))
    else if call.isCallOfAny ["if", "for", "while"] then
      let s ← Build.enter scope
      modify (·.setScope a (some s))
  | some inner =>
    modify (·.setScope a (some inner))
    if call.isCallOf "def" then
      enterFunction scope call

/-- Enters a variable into the scope of the node `a`.  Only names can be defined. -/
def enterVariable (a defined defining : Node) : Build Unit := do
  if !defined.isIdent then
    Build.unforeseen
  let p ← get
  let scope ← Build.need (p.scopeOf? a)
  modify (·.addVariable scope defined defining)

/-- Enters what the argument `a` of a call defines. -/
def enterArgument (call a : Node) : Build Unit := do
  if a.isIdent && call.isCallOfAny ["def", "lambda"] then
    enterVariable a a call
  else if a.isTyped && call.isDefinition then
    Build.unforeseen
  else if a.isBinary && a.op? == some "in" && call.isCallOf "for" then
    match a.lhs? with
    | none => Build.unforeseen
    | some target =>
      if target.isIdent then enterVariable a target call
      else if target.isTuple then target.args.forM fun part => enterVariable a part call
  else if a.isBlock && call.isDefinition then
    let p ← get
    let scope ← Build.need (p.scopeOf? a)
    if call.isCallOfAny ["class", "struct"] then
      modify (·.modifyScope scope fun s => { s with inFunctionBody := false, inClassBody := true })
    else
      modify (·.modifyScope scope fun s => { s with inFunctionBody := true })

def visitCall (call : Node) : Build Unit := do
  let scope ← inheritScope call
  let inner ← if call.isDefinition then some <$> Build.enter scope else pure none
  call.args.zipIdx.forM fun (a, i) => do
    openScope call scope inner i a
    enterArgument call a

/-- A name with a declared type defines a variable. -/
def visitName (n : Node) : Build Unit := do
  let scope ← inheritScope n
  match n.type with
  | none => return
  | some type =>
    let inTemplate := ((← get).parent? n |>.map Node.isTemplate).getD false
    if !inTemplate && !type.isOneOf ["using", "namespace", "typedef"] then
      modify (·.addVariable scope n n)

/-- An assignment defines the variables on its left. -/
def visitAssign (n : Node) : Build Unit := do
  let scope ← inheritScope n
  match n.lhs? with
  | none => Build.unforeseen
  | some target =>
    let isAlias := (target.type.map (·.isOneOf ["using", "namespace"])).getD false
    if target.isIdent && !isAlias then
      modify (·.addVariable scope target n)
    else if target.isTuple then
      target.args.forM fun part => do
        if part.isIdent then
          modify (·.addVariable scope part n)

/-- What a single node adds. -/
def visitNode (n : Node) : Build Unit := do
  match n.kind with
  | .call _ => visitCall n
  | .name _ => visitName n
  | .binary .assign _ => visitAssign n
  | .module =>
    if ((← get).scopeOf? n).isNone then
      let s ← modifyGet (·.addScope {})
      modify (·.setScope n (some s))
  | _ => let _ ← inheritScope n

mutual
/-- Assigns scopes to a tree: a node, its arguments, what it applies, its declared type. -/
def resolve : Node → Build Unit
  | ⟨info, kind, func, args, type⟩ => do
    visitNode ⟨info, kind, func, args, type⟩
    resolveList args
    resolveOption func
    resolveOption type

def resolveOption : Option Node → Build Unit
  | none => return
  | some n => resolve n

def resolveList : List Node → Build Unit
  | [] => return
  | n :: ns => do
    resolve n
    resolveList ns
end

end Cppward.Analysis
