import Cppward.Analysis.Scope
import Cppward.Failure
import Cppward.Node.Label
import Cppward.Node.TypeList

namespace Cppward.Analysis

/-!
# Programs

A program under analysis is a labelled tree with tables: for each label the node, the node that
holds it and the scope it belongs to; and the scopes and classes themselves.
-/

variable (p : Program) (n : Node)

/-- A labelled tree with its tables.  The tree is the node with the label `root`. -/
structure Program where
  root : Nat := 1
  nodes : Array Node := #[]
  parents : Array (Option Nat) := #[]
  scopes : Array Scope := #[]
  scopeTable : Array (Option Nat) := #[]
  classes : Array ClassEntry := #[]
  deriving Inhabited

abbrev Build := StateT Program (Except Failure)

namespace Program

/-! ### Look-ups -/

def node? (label : Nat) : Option Node :=
  if label == 0 then none else p.nodes[label]?

/-- A node as it is now.  A node without a label stands for itself. -/
def current : Node := (p.node? n.id).getD n

def tree : Node := (p.node? p.root).getD default

/-- The label of the node that holds a node. -/
def parentLabel? : Option Nat :=
  if n.id == 0 then none else p.parents[n.id]?.join

def parent? : Option Node := (p.parentLabel? n).bind p.node?

/-- The number of the scope that a node belongs to. -/
def scopeOf? : Option Nat :=
  if n.id == 0 then none else p.scopeTable[n.id]?.join

def scope (id : Nat) : Scope := p.scopes[id]?.getD {}

/-! ### Tables of a tree -/

def parentsOf (tree : Node) (size : Nat) : Array (Option Nat) :=
  tree.walk.foldl (fun table n =>
    let parts := n.args ++ n.func.toList ++ n.type.toList
    parts.foldl (fun table part => table.setIfInBounds part.id (some n.id)) table)
    (Array.replicate size none)

/-- The program with another tree.  New nodes get labels, and the tables of nodes and holders are
    made anew; scopes are kept. -/
def refresh (tree : Node) : Program :=
  let (tree, size) := tree.label (max 1 p.nodes.size)
  let nodes := tree.walk.foldl (fun table n => table.setIfInBounds n.id n)
    (Array.replicate size default)
  { p with
    root := tree.id
    nodes
    parents := parentsOf tree size
    scopeTable := p.scopeTable ++ Array.replicate (size - p.scopeTable.size) none }

/-- A program that goes on with another tree.  Nodes that have a label keep it, and with it the scope
    that they belong to. -/
def resume (tree : Node) : Program :=
  refresh
    { p with nodes := p.nodes ++ Array.replicate (tree.nextLabel - p.nodes.size) default } tree

def ofTree (tree : Node) : Program := resume {} tree

/-! ### Changes -/

/-- Shows a changed node to the nodes that hold it, up to `n` levels. -/
def propagate : Nat → Node → Program → Program
  | 0, _, p => p
  | n + 1, part, p =>
    match p.parent? part with
    | none => p
    | some holder =>
      let holder := holder.replacePart part
      propagate n holder { p with nodes := p.nodes.setIfInBounds holder.id holder }

/-- Replaces the node that carries the label of `n`. -/
def update : Program :=
  if n.id == 0 then p
  else propagate p.nodes.size n { p with nodes := p.nodes.setIfInBounds n.id n }

/-- Adds a new tree to the tables.  Its nodes belong to no scope yet, and only the labels in it say
    which of its nodes are old. -/
def adopt (tree : Node) : Node × Program :=
  let old := p.nodes.size
  let (tree, size) := tree.label (max 1 old)
  let grown := size - old
  let nodes := tree.walk.foldl
    (fun table n => if n.id < old then table else table.setIfInBounds n.id n)
    (p.nodes ++ Array.replicate grown default)
  (tree, { p with
    nodes
    parents := p.parents ++ Array.replicate (size - p.parents.size) none
    scopeTable := p.scopeTable ++ Array.replicate (size - p.scopeTable.size) none })

def setParent (holder : Option Node) : Program :=
  { p with parents := p.parents.setIfInBounds n.id (holder.map Node.id) }

/-- Says which scope a node belongs to. -/
def setScope (scope : Option Nat) : Program :=
  { p with scopeTable := p.scopeTable.setIfInBounds n.id scope }

def modifyScope (id : Nat) (f : Scope → Scope) : Program :=
  { p with scopes := p.scopes.modify id f }

def addScope (s : Scope) : Nat × Program :=
  (p.scopes.size, { p with scopes := p.scopes.push s })

/-- A new scope inside another one, and its number. -/
def enterScope (id : Nat) : Nat × Program := p.addScope ((p.scope id).inner id)

end Program

namespace Build

/-- Fails on a program of a form that is not provided for. -/
def unforeseen {α : Type} : Build α := throw .unforeseen

/-- Something that is there in all programs that are provided for. -/
def need {α : Type} (x : Option α) : Build α :=
  match x with
  | some a => return a
  | none => unforeseen

/-- A new scope inside another one. -/
def enter (id : Nat) : Build Nat := modifyGet (·.enterScope id)

def adopt (tree : Node) : Build Node := modifyGet (·.adopt tree)

end Build

end Cppward.Analysis
