import Cppward.Cache.Term
import Cppward.Node.Basic

namespace Cppward.Cache

/-!
# Values of constructor expressions

The value of a constructor expression is built from the values of its arguments.
-/

/-- What an expression stands for. -/
inductive Value where
  | nothing
  | number (n : Nat)
  | text (s : String)
  /-- The offset of a node. -/
  | offset (n : Nat)
  | node (n : Node)
  | nodes (ns : List Node)
  deriving Inhabited

/-- The classes of binary operators that a tree is built from. -/
def binaryClass? : String → Option Binary
  | "BinOp" => some .plain
  | "TypeOp" => some .typed
  | "AttributeAccess" => some .attribute
  | "ArrowOp" => some .arrow
  | "ScopeResolution" => some .scope
  | "Assign" => some .assign
  | "BitwiseOrOp" => some .bitOr
  | "EqualsCompareOp" => some .equals
  | _ => none

def operatorKind? (name op : String) : Option Kind :=
  match name with
  | "UnOp" => some (.unary op)
  | "LeftAssociativeUnOp" => some (.trailing op)
  | name => (binaryClass? name).map fun cls => .binary cls op

/-- The kinds of nodes that apply a node to arguments. -/
def applicationKind? : String → Option Kind
  | "Call" => some (.call false)
  | "ArrayAccess" => some .index
  | "BracedCall" => some .bracedCall
  | "Template" => some .template
  | _ => none

/-- The kinds of nodes that have nothing but arguments. -/
def sequenceKind? : String → Option Kind
  | "ListLiteral" => some .list
  | "TupleLiteral" => some .tuple
  | "BracedLiteral" => some .braces
  | "Block" => some .block
  | "Module" => some .module
  | "RedundantParens" => some .parens
  | "InfixWrapper_" => some .wrapper
  | _ => none

/-- An affix is nothing or a name. -/
def Value.affix? : Value → Option (Option Affix)
  | .nothing => some none
  | .node n => n.name?.map fun name => some { name, loc := n.info.loc }
  | _ => none

/-- The node that a constructor makes from its arguments at an offset. -/
def constructNode (name : String) (args : List Value) (loc : Nat) : Option Node :=
  match args with
  | [.text s] => if name == "Identifier" then some (Node.ident s loc) else none
  | [.text digits, .nodes ns] =>
    (operatorKind? name digits).map fun kind => Node.make kind none ns loc
  | [.text digits, tail] => do
    let tail ← tail.affix?
    match name with
    | "IntegerLiteral" => some (Node.make (.int digits tail) none [] loc)
    | "FloatLiteral" => some (Node.make (.float digits tail) none [] loc)
    | _ => none
  | [.text s, lead, tail] => do
    let lead ← lead.affix?
    let tail ← tail.affix?
    if name == "StringLiteral" then some (Node.make (.str s lead tail) none [] loc) else none
  | [.node func, .nodes ns] =>
    (applicationKind? name).map fun kind => Node.make kind (some func) ns loc
  | [.nodes ns] => (sequenceKind? name).map fun kind => Node.make kind none ns loc
  | _ => none

/-- The value of a constructor.  The last argument of a node may be its offset. -/
def construct (name : String) (args : List Value) : Option Value :=
  match name, args with
  | "SourceLoc", [.nothing, .number n] => some (.offset n)
  | name, args =>
    match args.getLast? with
    | some (.offset loc) => (constructNode name args.dropLast loc).map .node
    | _ => (constructNode name args 0).map .node

def Value.ofList? (vs : List Value) : Option Value :=
  (vs.mapM fun
    | Value.node n => some n
    | _ => none).map .nodes

mutual
def Term.value? : Term → Option Value
  | .name text => if text == "None" then some .nothing else none
  | .number n => some (.number n)
  | .text s => some (.text s)
  | .list items => do Value.ofList? (← values? items)
  | .apply name args => do construct name (← values? args)

def values? : List Term → Option (List Value)
  | [] => some []
  | t :: ts => do return (← t.value?) :: (← values? ts)
end

/-- What a cached text holds. -/
inductive Entry where
  /-- The text is no expression, and is not used. -/
  | unusable
  /-- The text is an expression that builds no module. -/
  | wrong
  | module (n : Node)

/-- Reads a cached text.  Brackets may be nested to any depth here; where expressions with more than 200
    nested brackets are refused, a cache with such a text is not used, as if it were `unusable`. -/
def Entry.read (cs : List Char) : Entry :=
  if cs.contains '\x00' then .wrong
  else
    match Term.read cs with
    | none => .unusable
    | some t =>
      match t.value? with
      | some (.node n) => if n.isModule then .module n else .wrong
      | _ => .wrong

end Cppward.Cache
