import Cppward.Emit.Generator
import Cppward.Emit.Specifier

namespace Cppward.Emit

open Analysis

/-!
# Types

A type is a list of specifiers.  Instances of classes are held by smart pointers, so a class in a
type stands for a pointer to it, whose kind depends on the class and on the specifiers next to it.
-/

/-- A part of a type: a specifier, or code that was made from several. -/
inductive Piece where
  | node (n : Node)
  | code (text : String)

namespace Pointer

/-- A smart pointer of some kind. -/
def text (pointer target : String) : String :=
  "ceto::propagate_const<std::" ++ pointer ++ "<" ++ target ++ ">>"

/-- The groups of specifiers that make a pointer to the class `c`, in the order in which they are
    tried: the group, the kind of pointer, what it points to, and whether it is a weak pointer. -/
def explicitGroups (c : String) : List (List String × String × String × Bool) :=
  [(["shared", "mut", c], "shared_ptr", c, false),
    (["shared", "const", c], "shared_ptr", "const " ++ c, false),
    (["unique", "mut", c], "unique_ptr", " " ++ c, false),
    (["unique", "const", c], "unique_ptr", "const " ++ c, false),
    (["weak", "mut", c], "weak_ptr", c, true),
    (["weak", "const", c], "weak_ptr", "const " ++ c, true),
    (["weak", c], "weak_ptr", "const " ++ c, true)]

/-- The groups in which the class itself decides the kind of pointer. -/
def impliedGroups (c : String) : List (List String × String) :=
  [(["mut", c], c), (["const", c], "const " ++ c)]

/-- The places of a group among the names of specifiers. -/
def places (group : List String) (names : List (Option String)) : Gen (Option (List Nat)) :=
  match groupPlaces (group.map some) names with
  | .ok r => return r
  | .error e => throw e

/-- The first of several explicit groups that is there. -/
def explicit (types : List Node) (names : List (Option String)) (isUnique : Bool) :
    List (List String × String × String × Bool) → Gen (Option (String × List Nat))
  | [] => return none
  | (group, pointer, target, isWeak) :: rest => do
    match ← places group names with
    | none => explicit types names isUnique rest
    | some found =>
      if isWeak && isUnique then
        Gen.refuse .weakUnique (← Gen.need types.head?)
      return some (text pointer target, found)

/-- The first of several implied groups that is there. -/
def implied (names : List (Option String)) (pointer : String) :
    List (List String × String) → Gen (Option (String × List Nat))
  | [] => return none
  | (group, target) :: rest => do
    match ← places group names with
    | none => implied names pointer rest
    | some found => return some (text pointer target, found)

/-- The pointer that the specifiers of a type stand for, and the places of the specifiers that it
    takes up.  A struct stands for itself unless a pointer is asked for. -/
def forSpecifiers (types : List Node) (cx : Context) : Gen (Option (String × List Nat)) := do
  let found ← types.filterMapM fun t => do
    return (← Gen.lookupClass cx (some t)).map fun c => (t, c.entry)
  match found with
  | [] => return none
  | (t, c) :: more =>
    if !more.isEmpty then
      Gen.refuse .tooManyClassTypes t
    let name ← Gen.need t.name?
    let names := types.map Node.name?
    if c.isUnique then
      let unique := text "unique_ptr" ("const " ++ name)
      if let some found ← places ["const", name, "ref"] names then
        return some ("const " ++ unique ++ "&", found)
    if !c.isStruct && ["ref", "ptr", "rref"].any fun s => names.contains (some s) then
      Gen.refuse .classReference (← Gen.need types.head?)
    if let some r ← explicit types names c.isUnique (explicitGroups name) then
      return some r
    if c.isStruct then
      return none
    let pointer := if c.isUnique then "unique_ptr" else "shared_ptr"
    if let some r ← implied names pointer (impliedGroups name) then
      return some r
    return some (text pointer ("const " ++ name), [types.findIdx fun u => u.id == t.id && u.isNamed name])

end Pointer

/-- The pointer that a class or interface alone stands for, up to what it points to, and what
    follows that. -/
def pointerText (cx : Context) (n : Option Node) : Gen (Option (String × String)) := do
  match ← Gen.lookupClass cx n with
  | none => return none
  | some c =>
    if c.index.isSome && c.entry.isStruct then return none
    else if c.entry.isUnique then return some ("ceto::propagate_const<std::unique_ptr<<", ">>")
    else return some ("ceto::propagate_const<std::shared_ptr<<", ">>")

/-- The expressions that may have a declared type. -/
def mayBeTyped (n : Node) : Bool :=
  n.isList || n.isTuple || n.isCall || n.isIdent || n.isTyped || n.isAttribute || n.isTemplate

/-- The nodes that may be a specifier with code of its own. -/
def maySpecify (n : Node) : Bool :=
  n.isIdent || n.isCall || n.isTemplate || n.isBinary || n.isUnary

/-- The specifiers `extern:"C"`. -/
def isExternC (a b : Piece) : Bool :=
  match a, b with
  | .node a, .node b =>
    a.isNamed "extern" &&
      (match b.kind with
        | .str text _ _ => text == "C"
        | _ => false)
  | _, _ => false

/-- The code of a single specifier of the type of `expr`. -/
def emitSpecifier (e : Emitter) (expr : Node) (cx : Context) (t : Node) : Gen String := do
  if t.isList then
    match t.args with
    | [element] => return "std::vector<" ++ (← e.type expr (some element) cx) ++ ">"
    | _ => Gen.refuse .listTypeArity expr
  else if t.isTuple then
    if t.args.isEmpty then
      Gen.refuse .emptyTupleType expr
    return "std::tuple<" ++ commas (← t.args.mapM fun a => e.type expr (some a) cx) ++ ">"
  else
    match t.name? with
    | some "ptr" => return "*"
    | some "ref" => return "&"
    | some "rref" => return "&&"
    | some "mut" => Gen.refuse .mutPlacement expr
    | some "new" | some "goto" => Gen.refuse .newOrGoto t
    | _ =>
      if !maySpecify t then
        Gen.refuse .typeForm t
      if t.type.isSome then Gen.withoutType t (e.node · cx) else e.node t cx

/-- The codes of the specifiers of the type of `expr`.  `names` are the names of the specifiers
    before pointers were made, read along with the pieces. -/
def emitPieces (e : Emitter) (expr : Node) (cx : Context) :
    List Piece → List (Option String) → Gen (List String)
  | [], _ => return []
  | .code text :: rest, names => return text :: (← emitPieces e expr cx rest (names.drop 1))
  | .node t :: q :: rest, names => do
    let two := names.take 2
    if isExternC (.node t) q then
      return "extern \"C\"" :: (← emitPieces e expr cx rest (names.drop 2))
    else if two == [some "ref", some "ref"] then
      return "&&" :: (← emitPieces e expr cx rest (names.drop 2))
    else if two.head? == some (some "requires") then
      match q with
      | .code _ => Gen.unforeseen
      | .node u =>
        let condition ← e.type expr (some u) cx
        return "requires" :: ("(" ++ condition ++ ")") ::
          (← emitPieces e expr cx rest (names.drop 2))
    else
      let code ← emitSpecifier e expr cx t
      return code :: (← emitPieces e expr cx (q :: rest) (names.drop 1))
  | [.node t], _ => return [← emitSpecifier e expr cx t]

/-- Puts the code of a pointer in place of the specifiers that it takes up. -/
def mergePieces (types : List Node) : Option (String × List Nat) → List Piece
  | none => types.map .node
  | some (_, []) => types.map .node
  | some (text, first :: rest) =>
    let pieces := (types.map Piece.node).set first (.code text)
    match rest.head?, rest.getLast? with
    | some a, some b => pieces.take a ++ pieces.drop (b + 1)
    | _, _ => pieces

/-- The code of the type `type` of the expression `expr`. -/
def emitType (e : Emitter) (expr : Node) (type : Option Node) (cx : Context) : Gen String := do
  let isUsing := (expr.isScope || expr.isAttribute) && (type.map (·.isNamed "using")).getD false
  if !isUsing && !mayBeTyped expr then
    Gen.refuse .typedExpression expr
  if expr.isCall && !expr.isLambda && !expr.isCallOf "def" then
    Gen.refuse .typedCallExpression expr
  let type ← Gen.need type
  let types := type.specifiers
  let names := types.map Node.name?
  match names with
  | some first :: _ =>
    if ["ptr", "ref", "rref"].contains first then
      Gen.refuse (.specifierFirst (type.name?.getD "None")) type
  | _ => pure ()
  let pieces := mergePieces types (← Pointer.forSpecifiers types cx)
  return " ".intercalate (← emitPieces e expr cx pieces names)

end Cppward.Emit
