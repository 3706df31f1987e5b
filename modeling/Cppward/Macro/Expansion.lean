import Cppward.Action
import Cppward.Macro.Match
import Cppward.Node.Copy
import Cppward.Node.Label

namespace Cppward.Macro

/-!
# Expanding macros

A statement `defmacro(pattern, parameters..., body)` defines a macro.  It is in force from there to
the end of the block it stands in, and of two macros that fit a node, the one defined later or
further inside is used.

What a body does is left open: `Bodies` says how a definition is prepared and how its body is run.  A body
gives a tree, or says that its macro does not apply after all.  A third answer, that the macro is to be
skipped until the walk has left the node, is not provided for, nor is the list of skipped definitions
that a walk keeps for it.
-/

structure Rule where
  /-- How many macros were defined before it in the same pass. -/
  index : Nat
  /-- The definition. -/
  definition : Node
  pattern : Node
  params : Parameters

/-- Adds a parameter; parameters are ordered by name. -/
def addParameter (params : Parameters) (name : String) (declaration : Node) : Parameters :=
  params.takeWhile (·.1 < name) ++ (name, declaration) :: params.dropWhile (·.1 < name)

def parameterName (declaration : Node) : Except Fault String :=
  match declaration.name? with
  | some name => .ok name
  | none =>
    if !declaration.isTyped then .error .parameterForm
    else
      match declaration.lhsName? with
      | some name => .ok name
      | none => .error .typedParameterForm

def readParameters : List Node → Parameters → Except Fault Parameters
  | [], params => .ok params
  | d :: ds, params => do
    let name ← parameterName d
    if (params.lookup name).isSome then
      throw .duplicateParameter
    readParameters ds (addParameter params name d)

def Rule.ofCall (index : Nat) (call : Node) : Except Fault Rule :=
  match call.args with
  | pattern :: rest => do
    if rest.isEmpty then
      throw .tooFewArguments
    if !((rest.getLast?.map Node.isBlock).getD false) then
      throw .noBody
    return { index, definition := call, pattern, params := ← readParameters rest.dropLast [] }
  | [] => .error .tooFewArguments

/-- What replaces the nodes with certain labels. -/
abbrev Replacements := List (Nat × Node)

/-- How bodies are prepared and run.  `ρ` is what a prepared body is. -/
structure Bodies (σ ρ : Type) where
  /-- A node as it is after the bodies prepared so far: to prepare a body may change nodes that
      stand before it. -/
  current : Node → Action σ Node := fun n => pure n
  /-- Prepares the body of a macro that is met, given the replacements found so far. -/
  define : Rule → Replacements → Action σ ρ
  /-- Runs a body.  Without a result the macro does not apply after all. -/
  run : ρ → Bindings → Action σ (Option Node)

/-- The state of a walk. -/
structure Walk (σ ρ : Type) where
  /-- The next free label. -/
  next : Nat
  /-- The macros in force, by block from the inside out, latest first. -/
  scopes : List (List (Rule × ρ)) := []
  replacements : Replacements := []
  defined : Nat := 0
  env : σ

/-- Computations during a walk. -/
abbrev Walking (σ ρ : Type) := Action (Walk σ ρ)

/-- Does something that concerns bodies. -/
def Walking.lift {σ ρ α : Type} (a : Action σ α) : Walking σ ρ α :=
  a.onPart Walk.env fun env w => { w with env }

def labelNew {σ ρ : Type} (n : Node) : Walking σ ρ Node :=
  modifyGet fun w =>
    let (n, next) := n.label w.next
    (n, { w with next })

/-- Tries macros on a node.  If one applies, its result is walked in turn. -/
def tryRules {σ ρ : Type} (bodies : Bodies σ ρ) (walk : Node → Walking σ ρ Unit) (n : Node) :
    List (Rule × ρ) → Walking σ ρ Bool
  | [] => return false
  | (rule, body) :: rules => do
    let pattern ← Walking.lift (bodies.current rule.pattern)
    match matchNode rule.params pattern n with
    | .error fault => throw (.expansion fault)
    | .ok none => tryRules bodies walk n rules
    | .ok (some bindings) =>
      match ← Walking.lift (bodies.run body bindings) with
      | none => tryRules bodies walk n rules
      | some result =>
        if result.id == n.id then
          tryRules bodies walk n rules
        else
          let result ← labelNew result
          modify fun w =>
            { w with replacements := w.replacements.filter (·.1 != n.id) ++ [(n.id, result)] }
          walk result
          return true

/-- Takes a definition into force. -/
def define {σ ρ : Type} (bodies : Bodies σ ρ) (call : Node) : Walking σ ρ Unit := do
  let w ← get
  match Rule.ofCall w.defined call with
  | .error fault => throw (.expansion fault)
  | .ok rule =>
    modify fun w => { w with defined := w.defined + 1 }
    let body ← Walking.lift (bodies.define rule w.replacements)
    modify fun w =>
      { w with scopes :=
          match w.scopes with
          | inner :: outer => ((rule, body) :: inner) :: outer
          | [] => [[(rule, body)]] }

/-- Walks a tree and notes what its nodes are replaced by, down to depth `depth`.  A block opens a
    scope for macros; the scope stays open behind a block that is itself replaced. -/
def visit {σ ρ : Type} (bodies : Bodies σ ρ) : (depth : Nat) → Node → Walking σ ρ Unit
  | 0, _ => throw .unforeseen
  | depth + 1, n => do
    let attempt : Walking σ ρ Bool := do
      tryRules bodies (visit bodies depth) n (← get).scopes.flatten
    match n.kind with
    | .module =>
      modify fun w => { w with scopes := [[]] }
      n.args.forM (visit bodies depth)
    | .block =>
      let outer := (← get).scopes
      modify fun w => { w with scopes := [] :: outer }
      if ← attempt then
        return
      n.args.forM (visit bodies depth)
      modify fun w => { w with scopes := outer }
    | _ =>
      if ← attempt then
        return
      n.func.forM (visit bodies depth)
      n.args.forM (visit bodies depth)
      if n.isCallOf "defmacro" then
        define bodies n

mutual
/-- Puts replacements in place, from the outside in.  What is put in is not searched again. -/
def replace (rs : Replacements) : Node → Node
  | ⟨info, kind, func, args, type⟩ =>
    match rs.lookup info.id with
    | some n => n.copy.unlabel
    | none => ⟨info, kind, replaceOption rs func, replaceList rs args, type⟩

def replaceOption (rs : Replacements) : Option Node → Option Node
  | none => none
  | some n => some (replace rs n)

def replaceList (rs : Replacements) : List Node → List Node
  | [] => []
  | n :: ns => replace rs n :: replaceList rs ns
end

/-- How deep a walk goes, results of macros included. -/
def walkDepth : Nat := 10000

/-- How many passes are made. -/
def passLimit : Nat := 10000

def expandOnce {σ ρ : Type} (bodies : Bodies σ ρ) (module : Node) (next : Nat) :
    Action σ Replacements := do
  let start : Walk σ ρ := { next, env := ← get }
  let (result, w) := (visit bodies walkDepth module).perform start
  set w.env
  match result with
  | .ok () => return w.replacements
  | .error e => throw e

/-- Expands the macros of a labelled module.  `bodies` may depend on the module as it is in each
    pass. -/
def expandPasses {σ ρ : Type} (bodies : Node → Bodies σ ρ) : (limit : Nat) → Node → Action σ Node
  | 0, _ => throw .unforeseen
  | limit + 1, module => do
    let (module, next) := module.label module.nextLabel
    let bodiesHere := bodies module
    let replacements ← expandOnce bodiesHere module next
    let module ← bodiesHere.current module
    if replacements.isEmpty then
      return module
    expandPasses bodies limit (replace replacements module)

def expand {σ ρ : Type} (bodies : Node → Bodies σ ρ) (module : Node) : Action σ Node :=
  expandPasses bodies passLimit module

/-- Bodies that cannot be prepared. -/
def noBodies : Bodies Unit Unit where
  define _ _ := throw .unforeseen
  run _ _ := throw .unforeseen

/-- Expands the macros of a module where no macro can be defined. -/
def expandNone (module : Node) : Except Failure Node :=
  ((expand (fun _ => noBodies) module).perform ()).1

end Cppward.Macro
