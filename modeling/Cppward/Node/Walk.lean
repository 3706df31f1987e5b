import Cppward.Node.Basic

namespace Cppward.Node

/-!
# Walks over a tree

* `walk` — all nodes, declared types included,
* `findAll` — the nodes with some property, except those below certain nodes,
* `comesBefore` — which of two nodes a walk meets first.
-/

mutual
/-- All nodes of a tree: a node, what it applies, its arguments, and its declared type. -/
def walk : Node → List Node
  | ⟨info, kind, func, args, type⟩ =>
    ⟨info, kind, func, args, type⟩ :: walkOption func ++ walkList args ++ walkOption type

def walkOption : Option Node → List Node
  | none => []
  | some n => n.walk

def walkList : List Node → List Node
  | [] => []
  | n :: ns => n.walk ++ walkList ns
end

mutual
/-- The nodes that pass `test`, in the order node, arguments, applied node.  A node that passes
    `stop` ends the search among the arguments it stands in, and in the node that is applied to
    them. -/
def findAll (test stop : Node → Bool) : Node → List Node
  | ⟨info, kind, func, args, type⟩ =>
    let n : Node := ⟨info, kind, func, args, type⟩
    if stop n then []
    else
      let (found, stopped) := findAllArgs test stop args
      (if test n then [n] else []) ++ found ++
        (if stopped then [] else findAllOption test stop func)

def findAllOption (test stop : Node → Bool) : Option Node → List Node
  | none => []
  | some n => findAll test stop n

/-- The search among arguments, and whether it was ended. -/
def findAllArgs (test stop : Node → Bool) : List Node → List Node × Bool
  | [] => ([], false)
  | n :: ns =>
    if stop n then ([], true)
    else
      let (found, stopped) := findAllArgs test stop ns
      (findAll test stop n ++ found, stopped)
end

mutual
/-- Some node passes `test`, which may fail.  Nodes are tried in the order of `findAll`, up to the
    first that passes. -/
def anyM {ε : Type} (test : Node → Except ε Bool) : Node → Except ε Bool
  | ⟨info, kind, func, args, type⟩ => do
    if ← test ⟨info, kind, func, args, type⟩ then return true
    if ← anyListM test args then return true
    anyOptionM test func

def anyOptionM {ε : Type} (test : Node → Except ε Bool) : Option Node → Except ε Bool
  | none => return false
  | some n => anyM test n

def anyListM {ε : Type} (test : Node → Except ε Bool) : List Node → Except ε Bool
  | [] => return false
  | n :: ns => do
    if ← anyM test n then return true
    anyListM test ns
end

/-- Some node passes `test`; declared types are not searched. -/
def any (test : Node → Bool) (n : Node) : Bool := !(findAll test (fun _ => false) n).isEmpty

mutual
/-- Whether the node with the label `before` is met earlier than the one with the label `after`, in
    a walk that takes a node, then its arguments, then the node it applies.  There is no answer if
    neither is met. -/
def comesBefore (before after : Nat) : Node → Option Bool
  | ⟨info, _, func, args, _⟩ =>
    if info.id == before then some true
    else if info.id == after then some false
    else (comesBeforeList before after args).orElse fun _ => comesBeforeOption before after func

def comesBeforeOption (before after : Nat) : Option Node → Option Bool
  | none => none
  | some n => comesBefore before after n

def comesBeforeList (before after : Nat) : List Node → Option Bool
  | [] => none
  | n :: ns => (comesBefore before after n).orElse fun _ => comesBeforeList before after ns
end

end Cppward.Node
