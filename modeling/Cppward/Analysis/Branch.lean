import Cppward.Failure
import Cppward.Node.TypeList

namespace Cppward.Analysis

/-!
# Bodies as blocks

The bodies of branches, lambdas and `requires` may be written inline.  This pass gives each of them
a block, so that later stages meet one form only.

A node that is rebuilt is a new one, and has no label.
-/

variable (call : Node) (n : Node)

/-- Refuses a program without pointing at a node. -/
def refuse {α : Type} (fault : Fault) : Except Failure α := .error (.analysis fault none)

namespace Branch

/-- The argument announces the block that follows it: `else`, or `elif` with a condition. -/
def announces : Bool := n.isNamed "else" || n.isTyped && n.lhsName? == some "elif"

/-- Replaces the argument at position `i` by others. -/
def splice (i : Nat) (new : List Node) : Node :=
  { call.withId 0 with
    kind := .call true
    args := call.args.take i ++ new ++ call.args.drop (i + 1) }

/-- Looks at the arguments from position `i` on for one that is written inline, and gives it a
    block.  There is no result if all have one. -/
def scan (call : Node) : Nat → List Node → Except Failure (Option Node)
  | _, [] => .ok none
  | i, a :: rest =>
    if a.isBlock then
      if (call.args[i - 1]?.map announces).getD false then scan call (i + 1) rest
      else refuse (.strayBlock i)
    else if a.isTyped then
      match a.args with
      | [word, body] =>
        if word.isNamed "else" then
          .ok (some (splice call i [word, Node.ofBlock [body]]))
        else if word.isNamed "elif" then
          if (rest.head?.map Node.isBlock).getD false then scan call (i + 1) rest
          else
            match body.isTyped, body.args with
            | true, [cond, inline] =>
              let head :=
                { a.withId 0 with kind := .binary .typed (a.op?.getD ""), args := [word, cond] }
              .ok (some (splice call i [head, Node.ofBlock [inline]]))
            | _, _ => refuse .ifArguments
        else refuse (.strayColon a.text i)
      | _ => .error .unforeseen
    else if a.isNamed "else" then
      if i + 2 != call.args.length then refuse .elsePlacement
      else if !((call.args.getLast?.map Node.isBlock).getD false) then refuse .afterElse
      else scan call (i + 1) rest
    else refuse (.strayArgument a.text i)

/-- Gives one inline branch of an `if` a block; there is no result if all have one. -/
def step : Except Failure (Option Node) :=
  match call.args with
  | [] => refuse .noIfArguments
  | first :: rest =>
    if (rest.head?.map Node.isBlock).getD false then scan call 2 (rest.drop 1)
    else
      match first.isTyped, first.args with
      | true, [cond, body] =>
        if body.isAssign then refuse .assignmentOneLiner
        else .ok (some (splice call 0 [cond, Node.ofBlock [body]]))
      | _, _ => refuse .firstIfArguments

end Branch

/-- Gives the branches of an `if` blocks, at most `n` of them. -/
def normalizeIf : Nat → Node → Except Failure Node
  | 0, call => .ok call
  | n + 1, call => do
    match ← Branch.step call with
    | some call => normalizeIf n call
    | none => return call

def blockLast : Node :=
  match call.args.getLast? with
  | some last =>
    if last.isBlock then call
    else
      { call.withId 0 with
        kind := .call false
        args := call.args.dropLast ++ [Node.ofBlock [last]] }
  | none => call

/-- The statements of a lambda, so that the last one returns.  A loop is followed by a bare
    `return`; other statements become the value that is returned. -/
def returnLast (statements : List Node) : Except Failure (List Node) :=
  match statements.getLast? with
  | none => .error .unforeseen
  | some last =>
    if last.isReturn then .ok statements
    else if last.isCallOfAny ["while", "for", "classstruct"] then
      .ok (statements ++ [Node.ident "return"])
    else
      let implied := !last.isCallOf "lambda"
      .ok (statements.dropLast ++
        [Node.ofBinary (.clause implied) ":" (Node.ident "return") last])

/-- A lambda whose body is a block that ends in a `return`. -/
def completeLambda : Except Failure Node :=
  let call := blockLast call
  match call.args.getLast? with
  | none => .error .unforeseen
  | some body => do
    let statements ← returnLast body.args
    return { call with args := call.args.dropLast ++ [{ body with args := statements }] }

/-- The words that a colon may follow without giving a type. -/
def clauseWords : List String := ["except", "return", "else", "elif"]

/-- A colon after a keyword, and `return` with a value, as clauses. -/
def clauseForm : Node :=
  match n.kind with
  | .binary .typed op =>
    if (n.lhs?.map (·.isOneOf clauseWords)).getD false then
      { n.withId 0 with kind := .binary (.clause false) op }
    else n
  | .unary "return" =>
    let new := n.withId 0
    { new with
      kind := .binary (.clause false) ":"
      args := { Node.ident "return" with info := new.info } :: n.args }
  | _ => n

/-- The form of one node, its parts aside. -/
def expandBody : Except Failure Node :=
  let n := clauseForm n
  if !n.isCall then .ok n
  else if n.isCallOf "def" then
    if n.args.isEmpty then refuse .emptyDef else .ok n
  else if n.isLambda then
    if n.args.isEmpty then refuse .noLambdaArguments else completeLambda n
  else if n.isCallOf "if" then normalizeIf (n.args.length + 1) n
  else if n.isCallOf "requires" then
    if n.args.isEmpty then .error (.analysis .emptyRequires (some (.ofNode n))) else .ok (blockLast n)
  else .ok n

/-- Gives the bodies in a tree blocks, down to depth `depth`.  Macro definitions keep the form they
    are written in. -/
def expandBodiesTo : (depth : Nat) → Node → Except Failure Node
  | 0, n => .ok n
  | depth + 1, n => do
    if n.isCallOf "defmacro" then
      return n
    let n ← expandBody n
    let args ← n.args.mapM (expandBodiesTo depth)
    let func ← n.func.mapM (expandBodiesTo depth)
    return { n with args, func }

/-- Gives the bodies in a tree blocks.  A level of the tree becomes three at most: a block, a
    `return` and the node itself. -/
def expandBodies : Except Failure Node := expandBodiesTo (3 * n.size + 3) n

end Cppward.Analysis
