import Cppward.Analysis.Program

namespace Cppward.Analysis.Program

/-!
# Looking up names

Variables, functions and classes are looked up in a scope and the scopes around it.

* `addVariable` — a new variable, whose sort depends on where it is defined,
* `findDefs` — the definitions that a name may refer to; an assignment of one variable to another
  is followed,
* `lookupFunction`, `lookupClass`.
-/

variable (p : Program) (scope : Nat) (var : Node)

/-- The sort of a variable that is defined at `n` or below it; at most `fuel` holders are
    considered. -/
def variableSort (p : Program) : (fuel : Nat) → Option Node → VariableSort
  | 0, _ | _, none => .globalVariable
  | fuel + 1, some n =>
    let isClass (d : Node) : Bool := d.isCallOfAny ["class", "struct"]
    if n.isDefinition then
      if isClass n then .field
      else if n.funcName?.isSome then .parameter
      else .localVariable
    else
      match n.isBlock, p.parent? n with
      | true, some d =>
        if d.isDefinition then if isClass d then .field else .localVariable
        else variableSort p fuel (some d)
      | _, holder => variableSort p fuel holder

def addVariable (defined defining : Node) : Program :=
  let sort := p.variableSort (p.nodes.size + 1) (p.parent? defined)
  let definition : Definition :=
    { sort, name := defined.name?.getD "", defined := defined.id, defining := defining.id }
  p.modifyScope scope fun s => { s with definitions := s.definitions ++ [definition] }

/-- The variable that an assignment takes its value from, if it is a variable. -/
def aliasOf (d : Definition) : Option Node := do
  let defining ← p.node? d.defining
  let source ← if defining.isAssign then defining.rhs? else none
  if source.isIdent then some source else none

/-- A definition in some scope that the variable `var` may refer to. -/
def reaches (d : Definition) : Bool :=
  some d.name == var.name? && d.defined != var.id &&
    p.tree.comesBefore d.defined var.id == some true

/-- The definitions that `var` may refer to, seen from a scope, nearest first; each is followed by
    those that its value may refer to.  There is no answer if that takes more than `fuel` steps. -/
def findDefsIn (p : Program) : (fuel : Nat) → Nat → Node → Option (List Definition)
  | 0, _, _ => none
  | fuel + 1, scope, var => do
    let own ← ((p.scope scope).definitions.filter (p.reaches var)).mapM fun d => do
      match p.aliasOf d with
      | none => return [d]
      | some source => return d :: (← findDefsIn p fuel scope source)
    match (p.scope scope).parent with
    | none => return own.flatten
    | some outer => return own.flatten ++ (← findDefsIn p fuel outer var)

/-- The first definition that `var` may refer to, seen from a scope. -/
def findDefIn (p : Program) : (fuel : Nat) → Nat → Node → Option Definition
  | 0, _, _ => none
  | fuel + 1, scope, var =>
    match (p.scope scope).definitions.find? (p.reaches var) with
    | some d => some d
    | none => (p.scope scope).parent.bind fun outer => findDefIn p fuel outer var

/-- A bound on the steps of a look-up that comes to no name twice in one scope. -/
def lookupFuel : Nat := p.scopes.size * (p.nodes.size + 1) + 1

/-- The definitions that a name may refer to, seen from a scope. -/
def findDefs : Option (List Definition) :=
  if var.isIdent then p.findDefsIn p.lookupFuel scope var else some []

/-- The definition that a name refers to, seen from a scope. -/
def findDef : Option Definition :=
  if var.isIdent then p.findDefIn p.lookupFuel scope var else none

/-- The function with a name, seen from a scope; at most `fuel` scopes are considered. -/
def lookupFunctionIn (p : Program) : (fuel : Nat) → Nat → String → Option FunctionEntry
  | 0, _, _ => none
  | fuel + 1, scope, name =>
    match (p.scope scope).functions.find? (·.name == name) with
    | some f => some f
    | none => (p.scope scope).parent.bind fun outer => lookupFunctionIn p fuel outer name

/-- The function that a node names, seen from a scope. -/
def lookupFunction (n : Node) : Option FunctionEntry :=
  n.name?.bind (p.lookupFunctionIn (p.scopes.size + 1) scope)

def classEntry (index : Nat) : ClassEntry := p.classes[index]?.getD default

/-- The class with a name, seen from a scope; at most `fuel` scopes are considered. -/
def lookupClassIn (p : Program) : (fuel : Nat) → Nat → String → Option ClassRef
  | 0, _, _ => none
  | fuel + 1, scope, name =>
    let s := p.scope scope
    match s.classes.find? fun c => (p.classEntry c).name == name with
    | some c => some (.entry c)
    | none =>
      if (s.interfaces.lookup name).isSome then some .interface
      else s.parent.bind fun outer => lookupClassIn p fuel outer name

/-- The class that a node names, seen from a scope. -/
def lookupClass (n : Node) : Option ClassRef :=
  n.name?.bind (p.lookupClassIn (p.scopes.size + 1) scope)

/-- Adds a class to a scope, and gives its number. -/
def addClass (c : ClassEntry) : Nat × Program :=
  let index := p.classes.size
  (index, { p with classes := p.classes.push c }.modifyScope scope fun s =>
    { s with classes := s.classes ++ [index] })

def addFunction (f : FunctionEntry) : Program :=
  p.modifyScope scope fun s => { s with functions := s.functions ++ [f] }

end Cppward.Analysis.Program
