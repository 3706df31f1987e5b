import Cppward.Macro.Fault
import Cppward.Node.Text

namespace Cppward.Macro

/-!
# Matching a pattern

A macro has a pattern and parameters.  A parameter is a name that stands in the pattern for a node;
its declaration may restrict the class of the node, offer alternatives, or make it stand for a
whole run of arguments.
-/

variable (params : Parameters) (n : Node)

/-- The declarations of parameters by name. -/
abbrev Parameters := List (String × Node)

/-- The nodes that parameters stand for. -/
abbrev Bindings := List (String × Node)

namespace Bindings

/-- Adds bindings; a parameter that is bound already keeps its node. -/
def union (bs new : Bindings) : Bindings :=
  new.foldl (fun acc b => if (acc.lookup b.1).isSome then acc else acc ++ [b]) bs

/-- Binds a parameter anew. -/
def set (bs : Bindings) (name : String) (n : Node) : Bindings :=
  bs.filter (·.1 != name) ++ [(name, n)]

end Bindings

/-- A pattern that does not fit has no bindings; a declaration may turn out to be faulty. -/
abbrev Match := Except Fault (Option Bindings)

/-- The class `name` allows the node: the general classes allow all nodes under them. -/
def admits (name : String) (n : Node) : Bool :=
  name == "BinOp" && n.isBinary || name == "UnOp" && n.isUnary || name == "Node" ||
    n.kind.className == name

def sameName (name : String) (n : Node) : Option Bindings := if n.isNamed name then some [] else none

mutual
/-- A parameter `param`, written `name` in the pattern, whose declared type is `type`, against the
    node `n`. -/
def wildcardTyped (name param : String) (n : Node) : Node → Option Bindings
  | ⟨_, kind, _, args, _⟩ =>
    match kind with
    | .name cls => if admits cls n then some [(param, n)] else sameName name n
    | .binary .bitOr _ => wildcardAlternatives name param n args
    | _ => sameName name n

/-- The first of several types that allows the node. -/
def wildcardAlternatives (name param : String) (n : Node) : List Node → Option Bindings
  | [] => sameName name n
  | t :: ts =>
    match wildcardTyped name param n t with
    | some bs => some bs
    | none => wildcardAlternatives name param n ts
end

/-- The declared type of a parameter. -/
def declaredClass? (declaration : Node) : Option Node :=
  if declaration.isTyped then declaration.rhs? else none

def matchName (name : String) (n : Node) : Option Bindings :=
  match params.lookup name with
  | none => sameName name n
  | some declaration =>
    if declaration.isIdent then some [(name, n)]
    else
      match declaredClass? declaration with
      | some type => wildcardTyped name name n type
      | none => sameName name n

/-- A parameter may be absent: one of its two alternatives is `None`. -/
def isOptional (name : String) : Bool :=
  match (params.lookup name).bind declaredClass? with
  | some type => type.isBitOr && (type.lhsName? == some "None" || type.rhsName? == some "None")
  | none => false

/-- A parameter that stands for a run of arguments: the name and the class its declaration gives. -/
def variadic? (pattern : Node) :
    Except Fault (Option (String × String × Node)) :=
  match pattern.name? with
  | none => .ok none
  | some name =>
    match params.lookup name with
    | none => .ok none
    | some declaration =>
      match declaredClass? declaration with
      | none => .ok none
      | some type =>
        if !type.isList then .ok none
        else
          match type.args with
          | [cls] =>
            if !cls.isIdent then .error .listElement
            else
              match declaration.lhsName? with
              | none => .error .listName
              | some element => .ok (some (name, element, cls))
          | _ => .error .listArity

/-- The arguments of a pattern, each with the way to match it, against the arguments of a node.  What
    follows a run of arguments stands for a single one (`afterRun`). -/
def matchArgs (params : Parameters) (afterRun : Bool) :
    List (Node × (Node → Match)) → List Node → Bindings → Match
  | [], args, bs => .ok (if args.isEmpty then some bs else none)
  | (p, m) :: ps, args, bs => do
    match ← if afterRun then .ok none else variadic? params p with
    | none =>
      match args with
      | [] => return none
      | a :: rest =>
        match ← m a with
        | none => return none
        | some found => matchArgs params false ps rest (bs.union found)
    | some (name, element, cls) =>
      let fits (a : Node) : Bool := (wildcardTyped element element a cls).isSome
      matchArgs params true ps (args.dropWhile fits)
        (bs.set name (Node.make .list none (args.takeWhile fits)))

/-- Alternatives to an operator with an optional operand: the operand beside it alone. -/
def matchOperand (params : Parameters) (operands : List (Node × (Node → Match))) (n : Node) :
    List Node → Match
  | [] => .ok none
  | p :: ps =>
    match p.name? with
    | none => matchOperand params operands n ps
    | some name =>
      if isOptional params name then do
        let others := operands.filter fun (q, _) => q.name? != some name
        match ← others.foldlM (fun found (_, m) => do
            match found with
            | some bs => return some bs
            | none => m n) none with
        | some bs => return some bs
        | none => matchOperand params operands n ps
      else matchOperand params operands n ps

mutual
def matchNode (params : Parameters) : Node → Node → Match
  | ⟨info, kind, func, args, type⟩, n => do
    if let .name name := kind then
      return matchName params name n
    let operands := args.zip (matchers params args)
    if let .binary .. := kind then
      if let some bs ← matchOperand params operands n args then
        return some bs
    if !n.kind.sameClass kind || n.func.isSome != func.isSome then
      return none
    if n.args.isEmpty && n.func.isNone then
      return if n.text == Node.text ⟨info, kind, func, args, type⟩ then some [] else none
    match n.func with
    | none => matchArgs params false operands n.args []
    | some f =>
      match ← matchFunc params func f with
      | none => return none
      | some bs => matchArgs params false operands n.args bs

/-- The applied node of a pattern against that of a node. -/
def matchFunc (params : Parameters) : Option Node → Node → Match
  | none, _ => .ok none
  | some p, n => matchNode params p n

/-- The ways to match the arguments of a pattern. -/
def matchers (params : Parameters) : List Node → List (Node → Match)
  | [] => []
  | p :: ps => matchNode params p :: matchers params ps
end

end Cppward.Macro
