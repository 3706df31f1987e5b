import Cppward.Grammar.Level
import Cppward.Layout.Line

namespace Cppward.Grammar

/-!
# Expressions and statements

The grammar is written for a reader `self` of nested expressions; `expression n` allows them to be
nested `n` deep.  Every complete expression is marked by a node of kind `wrapper`, so that
parentheses that change nothing can be recognised afterwards.
-/

namespace Reader

variable (self : Reader Node)

/-- Expressions separated by commas; at least one. -/
def list1 : Reader (List Node) := do
  return (← self) :: (← many (do symbol ","; self))

/-- Expressions separated by commas, possibly none. -/
def list0 : Reader (List Node) := do
  return (← attempt (list1 self)).getD []

/-- Expressions separated by commas, possibly none, with an optional comma at the end. -/
def listTrailing : Reader (List Node) := do
  let items ← attempt do
    let items ← list1 self
    let _ ← attempt (symbol ",")
    return items
  return items.getD []

/-- The arguments of a template, and the mark that the layout puts behind it. -/
def templateArgs : Reader (List Node) := do
  symbol "<"
  let args ← list0 self
  symbol ">"
  let _ ← attempt (symbol (toString Layout.templateMark))
  return args

/-- A name, or a template with a name. -/
def named : Reader Node := do
  let name ← ident
  match ← attempt (templateArgs self) with
  | none => return name
  | some args => return Node.make .template (some name) args name.info.loc

/-- What starts with a parenthesis: a template with an expression for its name, a tuple, or an
    expression in parentheses. -/
def parenthesized : Reader Node := do
  let loc ← offset
  symbol "("
  match ← attempt self with
  | none =>
    let _ ← attempt (symbol ",")
    symbol ")"
    return Node.make .tuple none [] loc
  | some e =>
    match ← attempt (symbol ")") with
    | some _ =>
      match ← attempt (templateArgs self) with
      | none => return e
      | some args => return Node.make .template (some e) args loc
    | none =>
      symbol ","
      let more ← listTrailing self
      symbol ")"
      return Node.make .tuple none (e :: more) loc

/-- A list in square brackets. -/
def listLiteral : Reader Node := do
  let loc ← offset
  symbol "["
  let args ← listTrailing self
  symbol "]"
  return Node.make .list none args loc

def bracesLiteral : Reader Node := do
  let loc ← offset
  symbol "\x7b"
  let args ← list0 self
  symbol "\x7d"
  return Node.make .braces none args loc

/-- The parts that a selection starts with or leads to. -/
def atom : Reader Node :=
  literal '"' <|> literal '\'' <|> named self <|> listLiteral self <|> bracesLiteral self
    <|> parenthesized self

/-- Parts joined by selection. -/
def chain : Reader Node := readLevels chainLevels (atom self)

/-- An indented block of statements. -/
def block : Reader Node := do
  symbol ":"
  symbol (toString Layout.blockMark)
  let loc ← offset
  let args ← many1 (do
    let statement ← self
    let _ ← many1 (symbol ";")
    return statement)
  return Node.ofBlock args loc

/-- Arguments between blocks: any of them may be missing. -/
def looseArgs : Reader (List Node) := do
  let first ← attempt self
  let more ← many (do symbol ","; attempt self)
  return (first :: more).filterMap fun a => a

/-- The arguments of a call, blocks among them. -/
def callArgs : Reader (List Node) := do
  symbol "("
  let args ← looseArgs self
  let parts ← many (do return (← block self) :: (← looseArgs self))
  symbol ")"
  return args ++ parts.flatten

end Reader

/-- What follows a part and is applied to it: arguments in some brackets, and a selection from the
    result. -/
structure Application where
  kind : Kind
  args : List Node
  selection : Option (String × Node)

def Application.apply (loc : Nat) (func : Node) (a : Application) : Node :=
  let call := Node.make a.kind (some func) a.args loc
  match a.selection with
  | none => call
  | some (op, part) => Node.ofBinary (binaryOf op) op call part loc

namespace Reader

variable (self : Reader Node)

/-- Arguments in round, square or curly brackets. -/
def bracketed : Reader (Kind × List Node) :=
  (do return (.call false, ← callArgs self))
  <|> (do symbol "["; let args ← list0 self; symbol "]"; return (.index, args))
  <|> (do symbol "\x7b"; let args ← list0 self; symbol "\x7d"; return (.bracedCall, args))

def application : Reader Application := do
  let (kind, args) ← bracketed self
  let selection ← attempt do
    return (← firstOf [.symbol ".", .symbol "->", .symbol "::"], ← chain self)
  return { kind, args, selection }

/-- A chain with everything that is applied to it. -/
def applied : Reader Node := do
  let loc ← offset
  let first ← chain self
  let applications ← many (application self)
  return applications.foldl (Application.apply loc) first

/-- Three dots that stand alone. -/
def dots : Reader Node := do
  let loc ← offset
  symbol "..."
  return Node.ident "..." loc

def operand : Reader Node := applied self <|> float <|> integer <|> dots

end Reader

/-- An expression with at most `n` expressions nested in each other. -/
def expression : Nat → Reader Node
  | 0 => Reader.fail
  | n + 1 => do
    let loc ← Reader.offset
    let e ← readLevels expressionLevels (Reader.operand (expression n))
    return Node.make .wrapper none [e] loc

/-- Statements, each ended by a semicolon, up to the end of the text. -/
def statements (depth : Nat) : Reader (List Node) := do
  let args ← Reader.many1 (do
    let statement ← expression depth
    Reader.symbol ";"
    return statement)
  Reader.finished
  return args

end Cppward.Grammar
