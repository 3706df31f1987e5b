import Cppward.Analysis.Lookup
import Cppward.Analysis.Uses
import Cppward.Naming

namespace Cppward.Emit

open Analysis

/-!
# Generation of code

Code is generated from an analysed program.  On the way the program is changed in places: a lambda
gets its return type, an object reaches its own members through `this`, a branch that is used as a
value gets a `return`.  Generation therefore runs in a state, and a node in hand is looked up again
(`Gen.current`) where it may have been changed since.
-/

variable (n : Node) (cx : Context)

structure Generator where
  program : Program
  /-- The number of the last fresh name. -/
  names : Nat := 0
  /-- A main function has been generated. -/
  hasMain : Bool := false

/-- Computations that generate code. -/
abbrev Gen := StateT Generator (Except Failure)

/-- The number of the scope that code is generated in. -/
abbrev Context := Nat

/-- The parts of the generator that call each other. -/
structure Emitter where
  /-- The code of a node. -/
  node : Node → Context → Gen String
  /-- The code of a type; the first node is the typed expression. -/
  type : Node → Option Node → Context → Gen String
  /-- The code of the statements of a block. -/
  block : Node → Context → Gen String
  /-- The code of the type that an expression has. -/
  typeOf : Node → Context → Gen String
  /-- Code that stands for the type of an expression, and whether it is itself an expression whose
      type is meant. -/
  inferred : Node → Context → Gen (Bool × String)
  /-- The element type of the list that is assigned, if a use of it tells. -/
  element : Node → Context → Gen (Option String)

/-- An emitter that fails on everything. -/
def Emitter.exhausted : Emitter where
  node _ _ := throw .unforeseen
  type _ _ _ := throw .unforeseen
  block _ _ := throw .unforeseen
  typeOf _ _ := throw .unforeseen
  inferred _ _ := throw .unforeseen
  element _ _ := throw .unforeseen

/-- A class as it is found by its name.  An interface has no number. -/
structure ClassInfo where
  index : Option Nat
  entry : ClassEntry

def classNamed (p : Program) (cx : Context) (n : Node) : Option ClassInfo :=
  match p.lookupClass cx n with
  | none => none
  | some .interface => some { index := none, entry := { name := n.name?.getD "", definition := 0 } }
  | some (.entry i) => some { index := some i, entry := p.classEntry i }

namespace Gen

/-! ### Failing -/

/-- Fails on a program of a form that is not provided for. -/
def unforeseen {α : Type} : Gen α := throw .unforeseen

/-- Something that is there in all programs that are provided for. -/
def need {α : Type} (x : Option α) : Gen α :=
  match x with
  | some a => return a
  | none => unforeseen

/-- Continues only if a condition holds that all programs which are provided for meet. -/
def ensure (b : Bool) : Gen Unit := if b then return else unforeseen

/-! ### The program -/

def program : Gen Program := return (← get).program

def modifyProgram (f : Program → Program) : Gen Unit :=
  modify fun g => { g with program := f g.program }

def current : Gen Node := return (← program).current n

def parent : Gen (Option Node) := return (← program).parent? n

/-- A property of the node that holds a node; a node that nothing holds has none. -/
def parentIs (test : Node → Bool) : Gen Bool := do
  return ((← parent n).map test).getD false

/-- Refuses a program, and points at a node. -/
def refuse {α : Type} (fault : Fault) (n : Node) : Gen α := do
  throw (.emission fault (some (.ofNode (← current n))))

/-- Refuses a program without pointing at a node. -/
def refuseBare {α : Type} (fault : Fault) : Gen α := throw (.emission fault none)

/-- Gives a node another declared type. -/
def setType (type : Option Node) : Gen Node := do
  let n := { (← current n) with type }
  modifyProgram (·.update n)
  return n

/-- Does something with a node whose declared type is put aside. -/
def withoutType {α : Type} (n : Node) (k : Node → Gen α) : Gen α := do
  let type := (← current n).type
  let a ← k (← setType n none)
  let _ ← setType n type
  return a

def adopt (tree : Node) : Gen Node :=
  modifyGet fun g =>
    let (tree, p) := g.program.adopt tree
    (tree, { g with program := p })

def fresh (hint : String) : Gen String :=
  modifyGet fun g => (privateName hint (g.names + 1), { g with names := g.names + 1 })

/-! ### Contexts -/

def context : Gen Scope := return (← program).scope cx

/-- A context inside another one. -/
def enter : Gen Context :=
  modifyGet fun g =>
    let (id, p) := g.program.enterScope cx
    (id, { g with program := p })

def modifyContext (f : Scope → Scope) : Gen Unit :=
  modifyProgram (·.modifyScope cx f)

/-- A context inside another one, with some of its properties changed. -/
def enterWith (f : Scope → Scope) : Gen Context := do
  let inner ← enter cx
  modifyContext inner f
  return inner

/-- The indentation of code in a context. -/
def indent : Gen String := do
  return String.ofList (List.replicate (← context cx).columns ' ')

/-! ### Names -/

/-- The scope that a node belongs to. -/
def scopeOf : Gen Nat := do need ((← program).scopeOf? n)

/-- The variable that `var` refers to, seen from a node. -/
def findDef (at_ var : Node) : Gen (Option Definition) := do
  let scope ← scopeOf at_
  return (← program).findDef scope var

/-- The variables that `var` may refer to, seen from a node. -/
def findDefs (at_ var : Node) : Gen (List Definition) := do
  let scope ← scopeOf at_
  need ((← program).findDefs scope var)

def nodeOf (label : Nat) : Gen Node := do need ((← program).node? label)

/-- The class that a node names, if there is one. -/
def lookupClass (n : Option Node) : Gen (Option ClassInfo) := do
  return n.bind (classNamed (← program) cx)

def modifyClass (index : Nat) (f : ClassEntry → ClassEntry) : Gen Unit :=
  modifyProgram fun p => { p with classes := p.classes.modify index f }

/-- Nothing uses the variable after this use of it. -/
def isLastUse : Gen Bool := do
  match (← program).isLastUse n with
  | .ok b => return b
  | .error e => throw e

end Gen

def braced (s : String) : String := "\x7b" ++ s ++ "\x7d"

def commas (texts : List String) : String := ", ".intercalate texts

/-- The codes of nodes, separated by commas. -/
def Emitter.nodes (e : Emitter) (ns : List Node) (cx : Context) : Gen String := do
  return commas (← ns.mapM (e.node · cx))

end Cppward.Emit
