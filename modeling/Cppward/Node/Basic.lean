namespace Cppward

/-!
# Nodes

A program is a tree of nodes.  Every node has a kind, which fixes its class and its own data, a
list of arguments, and for calls and their relatives a node that is applied (`func`).  Analysis
gives some nodes a declared type.
-/

variable (n : Node)

/-- A name that touches a literal, such as the `u` of `1u`, with the offset where it stands. -/
structure Affix where
  name : String
  loc : Nat := 0
  deriving DecidableEq, Repr, Inhabited

/-- The files that belong to an included module: the source, and the header generated from it. -/
structure Header where
  source : String
  generated : String
  deriving DecidableEq, Repr, Inhabited

/-- The data that every node carries beside its meaning. -/
structure Info where
  /-- The label that tells the nodes of an analysed program apart. -/
  id : Nat := 0
  /-- The offset in the block of text that the node was read from. -/
  loc : Nat := 0
  /-- The module that the node was included from, if it was. -/
  header : Option Header := none
  deriving DecidableEq, Repr, Inhabited

/-- The classes of binary operators. -/
inductive Binary where
  | plain
  /-- A colon that gives an expression its type. -/
  | typed
  /-- A colon after a keyword, as in `return: x`.  It is `implied` when it was put around the last
      expression of a lambda. -/
  | clause (implied : Bool)
  | attribute
  | arrow
  | scope
  | assign
  /-- An assignment that names an argument of a call. -/
  | named
  | bitOr
  | equals
  deriving DecidableEq, Repr, Inhabited

/-- What a node is. -/
inductive Kind where
  | name (text : String)
  | int (digits : String) (tail : Option Affix)
  | float (digits : String) (tail : Option Affix)
  | str (text : String) (lead tail : Option Affix)
  | unary (op : String)
  /-- An operator that follows its operand. -/
  | trailing (op : String)
  | binary (cls : Binary) (op : String)
  /-- A call.  `oneLiner` marks an `if` with a branch that was written on the line of its
      condition. -/
  | call (oneLiner : Bool)
  | index
  | bracedCall
  | template
  | list
  | tuple
  | braces
  | block
  | module
  /-- Parentheses around an expression that already stands in parentheses. -/
  | parens
  /-- The grammar's mark around every complete expression. -/
  | wrapper
  deriving DecidableEq, Repr, Inhabited

/-- A node of a program. -/
structure Node where
  info : Info
  kind : Kind
  func : Option Node
  args : List Node
  type : Option Node
  deriving Inhabited, Repr

namespace Binary

def className : Binary → String
  | .plain => "BinOp"
  | .typed => "TypeOp"
  | .clause _ => "SyntaxTypeOp"
  | .attribute => "AttributeAccess"
  | .arrow => "ArrowOp"
  | .scope => "ScopeResolution"
  | .assign => "Assign"
  | .named => "NamedParameter"
  | .bitOr => "BitwiseOrOp"
  | .equals => "EqualsCompareOp"

end Binary

namespace Kind

def className : Kind → String
  | .name _ => "Identifier"
  | .int .. => "IntegerLiteral"
  | .float .. => "FloatLiteral"
  | .str .. => "StringLiteral"
  | .unary _ => "UnOp"
  | .trailing _ => "LeftAssociativeUnOp"
  | .binary cls _ => cls.className
  | .call _ => "Call"
  | .index => "ArrayAccess"
  | .bracedCall => "BracedCall"
  | .template => "Template"
  | .list => "ListLiteral"
  | .tuple => "TupleLiteral"
  | .braces => "BracedLiteral"
  | .block => "Block"
  | .module => "Module"
  | .parens => "RedundantParens"
  | .wrapper => "InfixWrapper_"

/-- Two kinds of one class, whatever their data. -/
def sameClass (a b : Kind) : Bool := a.className == b.className

def op? : Kind → Option String
  | .unary op | .trailing op | .binary _ op => some op
  | _ => none

end Kind

namespace Node

/-! ### Construction -/

/-- A node without a label or a declared type. -/
def make (kind : Kind) (func : Option Node) (args : List Node) (loc : Nat := 0) : Node :=
  { info := { loc }, kind, func, args, type := none }

def ident (text : String) (loc : Nat := 0) : Node := make (.name text) none [] loc

/-- An integer literal without a suffix. -/
def ofDigits (digits : String) (loc : Nat := 0) : Node := make (.int digits none) none [] loc

def ofBinary (cls : Binary) (op : String) (lhs rhs : Node) (loc : Nat := 0) : Node :=
  make (.binary cls op) none [lhs, rhs] loc

def ofUnary (op : String) (arg : Node) (loc : Nat := 0) : Node := make (.unary op) none [arg] loc

def ofCall (func : Node) (args : List Node) (loc : Nat := 0) : Node :=
  make (.call false) (some func) args loc

def ofBlock (args : List Node) (loc : Nat := 0) : Node := make .block none args loc

def ofModule (args : List Node) (loc : Nat := 0) : Node := make .module none args loc

/-! ### Questions -/

/-- The text of a name; no other node has one. -/
def name? : Option String :=
  match n.kind with
  | .name text => some text
  | _ => none

def isNamed (text : String) : Bool := n.name? == some text

/-- The node is one of the names `texts`. -/
def isOneOf (texts : List String) : Bool :=
  match n.name? with
  | some text => texts.contains text
  | none => false

def funcName? : Option String := n.func.bind name?

def isIdent : Bool := n.name?.isSome

def isCall : Bool :=
  match n.kind with
  | .call _ => true
  | _ => false

def isCallOf (text : String) : Bool := n.isCall && n.funcName? == some text

def isCallOfAny (texts : List String) : Bool :=
  n.isCall && (n.func.map fun f => f.isOneOf texts).getD false

def isKind (kind : Kind) : Bool := n.kind == kind

def isIndex : Bool := n.kind == .index
def isTemplate : Bool := n.kind == .template
def isBracedCall : Bool := n.kind == .bracedCall
def isList : Bool := n.kind == .list
def isTuple : Bool := n.kind == .tuple
def isBraces : Bool := n.kind == .braces
def isModule : Bool := n.kind == .module

/-- A block; a module is one. -/
def isBlock : Bool := n.kind == .block || n.kind == .module

def binary? : Option Binary :=
  match n.kind with
  | .binary cls _ => some cls
  | _ => none

def isBinary : Bool := n.binary?.isSome

def isUnary : Bool :=
  match n.kind with
  | .unary _ => true
  | _ => false

/-- The operator text of a node. -/
def op? : Option String := n.kind.op?

def isAttribute : Bool := n.binary? == some .attribute
def isArrow : Bool := n.binary? == some .arrow
def isScope : Bool := n.binary? == some .scope
def isBitOr : Bool := n.binary? == some .bitOr

/-- An assignment, a named argument included. -/
def isAssign : Bool := n.binary? == some .assign || n.binary? == some .named

def isNamedArgument : Bool := n.binary? == some .named

/-- A colon after a keyword. -/
def isClause : Bool :=
  match n.binary? with
  | some (.clause _) => true
  | _ => false

/-- A colon, after a keyword or not. -/
def isTyped : Bool := n.binary? == some .typed || n.isClause

def isStr : Bool :=
  match n.kind with
  | .str .. => true
  | _ => false

def isNumber : Bool :=
  match n.kind with
  | .int .. | .float .. => true
  | _ => false

/-- The operand on the left of an operator. -/
def lhs? : Option Node := n.args[0]?

/-- The operand on the right of an operator. -/
def rhs? : Option Node := n.args[1]?

def lhsName? : Option String := n.lhs?.bind name?

def rhsName? : Option String := n.rhs?.bind name?

def withId (id : Nat) : Node := { n with info := { n.info with id } }

def id : Nat := n.info.id

/-! ### Size -/

mutual
/-- The number of nodes in a tree, declared types included. -/
def size : Node → Nat
  | ⟨_, _, func, args, type⟩ => 1 + sizeOption func + sizeList args + sizeOption type

def sizeOption : Option Node → Nat
  | none => 0
  | some n => n.size

def sizeList : List Node → Nat
  | [] => 0
  | n :: ns => n.size + sizeList ns
end

end Node

end Cppward
