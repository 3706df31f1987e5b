import Cppward.Node.Basic

namespace Cppward

/-!
# Lists of specifiers

A type is written as specifiers joined by colons, `const:int:ref`.  The colons may group in any
way, so passes work on the list of specifiers and join it again when they are done.
-/

namespace Binary

/-- Operators of class `a` count as operators of class `b`. -/
def isA (a b : Binary) : Bool :=
  match b, a with
  | .plain, _ => true
  | .typed, .clause _ => true
  | .clause _, .clause _ => true
  | .assign, .named => true
  | b, a => a == b

end Binary

namespace Node

mutual
/-- The specifiers of a type, from left to right.  A specifier that has a declared type of its own
    is followed by the specifiers of that. -/
def specifiers : Node → List Node
  | ⟨info, kind, func, args, type⟩ =>
    match kind with
    | .binary .typed _ | .binary (.clause _) _ => specifiersList args
    | kind => ⟨info, kind, func, args, type⟩ :: specifiersOption type

def specifiersOption : Option Node → List Node
  | none => []
  | some n => n.specifiers

def specifiersList : List Node → List Node
  | [] => []
  | n :: ns => n.specifiers ++ specifiersList ns
end

/-- Joins operands with a left-associative operator.  Each operator has the place of its right
    operand, the innermost one that of its left operand. -/
def joinLeft (cls : Binary) (op : String) : List Node → Option Node
  | [] => none
  | [n] => some n
  | a :: b :: rest =>
    let join (x y : Node) (at_ : Node) : Node :=
      { ofBinary cls op x y with info := { at_.info with id := 0 } }
    some (rest.foldl (fun acc c => join acc c c) (join a b a))

def ofSpecifiers? (ns : List Node) : Option Node := joinLeft .typed ":" ns

/-- The chain of attribute accesses with the given links. -/
def ofChain? (ns : List Node) : Option Node := joinLeft .attribute "." ns

mutual
/-- The operands of nested operators of the class `cls`, from left to right. -/
def operandsOf (cls : Binary) : Node → List Node
  | ⟨info, kind, func, args, type⟩ =>
    match kind with
    | .binary c op =>
      if c.isA cls then operandsOfList cls args else [⟨info, .binary c op, func, args, type⟩]
    | kind => [⟨info, kind, func, args, type⟩]

def operandsOfList (cls : Binary) : List Node → List Node
  | [] => []
  | n :: ns => operandsOf cls n ++ operandsOfList cls ns
end

/-- The operands of a nest of operators of one class; only a binary operator has any. -/
def flattened (n : Node) : List Node :=
  match n.binary? with
  | some cls => n.operandsOf cls
  | none => []

def isMutOrConst (n : Node) : Bool := n.isOneOf ["mut", "const"]

/-- The specifier `mut` or `const` of a type, if it has exactly one, and the type without it. -/
def splitMutOrConst (type : Node) : Option (Node × Option Node) :=
  let specs := type.specifiers
  match specs.filter isMutOrConst with
  | [mc] => some (mc, ofSpecifiers? (specs.filter (!·.isMutOrConst)))
  | _ => none

/-- The type without its `mut` or `const`, if it has exactly one.  Nothing is left of a type that
    has no other specifier. -/
def stripMutOrConst (type : Node) : Option Node :=
  match type.splitMutOrConst with
  | some (_, rest) => rest
  | none => some type

/-- A `return`, with or without a value, in any of its written forms. -/
def isReturn (n : Node) : Bool :=
  n.isTyped && n.lhsName? == some "return" || n.isNamed "return" ||
    n.isUnary && n.op? == some "return"

/-- A lambda, with or without a list of captures. -/
def isLambda (n : Node) : Bool :=
  n.isCall &&
    (n.funcName? == some "lambda" ||
      (match n.func with
        | some f => f.isIndex && f.funcName? == some "lambda"
        | none => false))

/-- A definition of a function, macro, lambda or class. -/
def isDefinition (n : Node) : Bool :=
  n.isCallOfAny ["def", "defmacro", "lambda", "class", "struct"] || n.isLambda

end Node

end Cppward
