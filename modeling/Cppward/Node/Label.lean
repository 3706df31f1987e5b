import Cppward.Node.Walk

namespace Cppward.Node

/-!
# Labels

The nodes of a program that is analysed are told apart by labels.  Labels count from one; zero
marks a node that has none yet.
-/

mutual
/-- Gives every node without a label the next free one, from `next` on. -/
def label (next : Nat) : Node → Node × Nat
  | ⟨info, kind, func, args, type⟩ =>
    let (info, next) := if info.id == 0 then ({ info with id := next }, next + 1) else (info, next)
    let (args, next) := labelList next args
    let (func, next) := labelOption next func
    let (type, next) := labelOption next type
    (⟨info, kind, func, args, type⟩, next)

def labelOption (next : Nat) : Option Node → Option Node × Nat
  | none => (none, next)
  | some n =>
    let (n, next) := n.label next
    (some n, next)

def labelList (next : Nat) : List Node → List Node × Nat
  | [] => ([], next)
  | n :: ns =>
    let (n, next) := n.label next
    let (ns, next) := labelList next ns
    (n :: ns, next)
end

mutual
/-- Takes the labels off a tree, down to declared types. -/
def unlabel : Node → Node
  | ⟨info, kind, func, args, type⟩ =>
    ⟨{ info with id := 0 }, kind, unlabelOption func, unlabelList args, type⟩

def unlabelOption : Option Node → Option Node
  | none => none
  | some n => some n.unlabel

def unlabelList : List Node → List Node
  | [] => []
  | n :: ns => n.unlabel :: unlabelList ns
end

/-- The label after all labels in a tree. -/
def nextLabel (n : Node) : Nat := n.walk.foldl (fun next m => max next (m.id + 1)) 1

/-- The nodes of a tree by their labels. -/
def table (n : Node) : Array Node :=
  n.walk.foldl (fun table m => table.setIfInBounds m.id m)
    (Array.replicate n.nextLabel default)

mutual
/-- Puts the nodes of a table in place of the nodes with their labels. -/
def settle (table : Array Node) : Node → Node
  | ⟨info, kind, func, args, type⟩ =>
    match table[info.id]? with
    | some n =>
      if info.id != 0 && n.info.id == info.id then n
      else ⟨info, kind, settleOption table func, settleList table args, settleOption table type⟩
    | none => ⟨info, kind, settleOption table func, settleList table args, settleOption table type⟩

def settleOption (table : Array Node) : Option Node → Option Node
  | none => none
  | some n => some (n.settle table)

def settleList (table : Array Node) : List Node → List Node
  | [] => []
  | n :: ns => n.settle table :: settleList table ns
end

/-- Replaces the direct parts of a node that carry the label of `part` by `part`. -/
def replacePart (n part : Node) : Node :=
  let swap (m : Node) : Node := if m.id == part.id then part else m
  { n with func := n.func.map swap, args := n.args.map swap, type := n.type.map swap }

end Cppward.Node
