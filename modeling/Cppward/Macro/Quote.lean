import Cppward.Naming
import Cppward.Source.Read

namespace Cppward.Macro

/-!
# Quotation

In the body of a macro, `quote(e)` stands for an expression that builds the tree of `e`.  Inside it,
`unquote(e)` stands for the value of `e`.
-/

/-- The part that a call of `word` quotes or unquotes. -/
def quotedPart (word : String) (fault : Analysis.Fault) (n : Node) : Except Failure (Option Node) :=
  if n.isCallOf word then
    match n.args with
    | [part] => .ok (some part)
    | _ => .error (.analysis fault (some (.ofNode n)))
  else .ok none

/-- Fresh names and the parts that they stand for. -/
abbrev Unquoted := List (String × Node)

mutual
/-- Puts fresh names in place of the unquoted parts below a node. -/
def takeUnquotes : Node → Naming (Node × Unquoted)
  | ⟨info, kind, func, args, type⟩ => do
    let (args, fromArgs) ← takeFromList args
    let (func, fromFunc) ← takeFromOption func
    return (⟨info, kind, func, args, type⟩, fromArgs ++ fromFunc)

/-- A part of a quotation: a fresh name if it is unquoted. -/
def takePart : Node → Naming (Node × Unquoted)
  | ⟨info, kind, func, args, type⟩ => do
    match ← quotedPart "unquote" .unquoteArity ⟨info, kind, func, args, type⟩ with
    | some part =>
      let name ← Naming.fresh
      return (Node.ident name, [(name, part)])
    | none =>
      let (args, fromArgs) ← takeFromList args
      let (func, fromFunc) ← takeFromOption func
      return (⟨info, kind, func, args, type⟩, fromArgs ++ fromFunc)

def takeFromOption : Option Node → Naming (Option Node × Unquoted)
  | none => return (none, [])
  | some n => do
    let (n, taken) ← takePart n
    return (some n, taken)

def takeFromList : List Node → Naming (List Node × Unquoted)
  | [] => return ([], [])
  | n :: ns => do
    let (n, taken) ← takePart n
    let (ns, more) ← takeFromList ns
    return (n :: ns, taken ++ more)
end

mutual
def replaceName (name : String) (new : Node) : Node → Node
  | ⟨info, kind, func, args, type⟩ =>
    ⟨info, kind, replaceNameOption name new func, replaceNameList name new args, type⟩

def replaceNameOption (name : String) (new : Node) : Option Node → Option Node
  | none => none
  | some n => some (if n.isNamed name then new else replaceName name new n)

def replaceNameList (name : String) (new : Node) : List Node → List Node
  | [] => []
  | n :: ns => (if n.isNamed name then new else replaceName name new n) :: replaceNameList name new ns
end

/-- The expression that builds a tree, in which the names in `free` stand for themselves. -/
def quotation (n : Node) (free : List String) : Except Failure Node := do
  let text := free.foldl (fun text name => Text.replace (Style.program.name name 0) name text)
    (n.constructorText Style.program)
  match (← Source.readProgram text).args with
  | e :: _ => return e
  | [] => throw .unforeseen

/-- The expansion of a part: quotations are looked for at its root, and below it by `expand`. -/
def expandPart (expand : Node → Naming Node) (part : Node) : Naming Node := do
  match ← quotedPart "quote" .quoteArity part with
  | none => expand part
  | some content =>
    let (content, unquoted) ← takeUnquotes content
    let built ← quotation content (unquoted.map (·.1))
    unquoted.foldlM (fun built (name, value) => do
      return replaceName name (← expand value) built) built

/-- Replaces the quotations below a node, down to depth `depth`. -/
def expandQuotesTo : (depth : Nat) → Node → Naming Node
  | 0, n => return n
  | depth + 1, n => do
    let args ← n.args.mapM (expandPart (expandQuotesTo depth))
    let func ← n.func.mapM (expandPart (expandQuotesTo depth))
    return { n with args, func }

/-- Replaces the quotations below a node. -/
def expandQuotes (n : Node) : Naming Node := expandQuotesTo (n.size + 1) n

end Cppward.Macro
