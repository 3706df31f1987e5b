import Cppward.Grammar.Token

namespace Cppward.Grammar

/-!
# Levels of precedence

Operators are ordered in levels.  A level is described by where its operators stand and by the
operators themselves, tried in order; `Level.reader` turns the description and the reader of the
next tighter level into the reader of the level.
-/

/-- An operator is punctuation or a keyword. -/
inductive Operator where
  | symbol (text : String)
  | word (text : String)
  deriving DecidableEq, Repr

def Operator.text : Operator → String
  | .symbol text | .word text => text

/-- Where the operators of a level stand. -/
inductive Fixity where
  /-- Between operands, grouped from the left. -/
  | left
  /-- Between operands, grouped from the right. -/
  | right
  /-- Before an operand. -/
  | before
  /-- After an operand. -/
  | after
  deriving DecidableEq, Repr

/-- A level of precedence. -/
structure Level where
  fixity : Fixity
  operators : List Operator
  /-- The operators of the level are not allowed. -/
  isForbidden : Bool := false
  deriving Repr

/-- The class of a binary operator. -/
def binaryOf : String → Binary
  | "." => .attribute
  | "->" => .arrow
  | "::" => .scope
  | "|" => .bitOr
  | "==" => .equals
  | ":" => .typed
  | "=" => .assign
  | _ => .plain

/-- The operators that select a part of something, tightest first. -/
def chainLevels : List Level := [
  { fixity := .left, operators := [.symbol "::"] },
  { fixity := .left, operators := [.symbol ".", .symbol "->"] }]

/-- The operators of expressions, tightest first. -/
def expressionLevels : List Level := [
  { fixity := .left, operators := [.symbol "&&"], isForbidden := true },
  { fixity := .before, operators := [.word "not", .symbol "*", .symbol "&"] },
  { fixity := .before, operators := [.symbol "+", .symbol "-"] },
  { fixity := .left, operators := [.symbol "*", .symbol "/", .symbol "%"] },
  { fixity := .left, operators := [.symbol "+", .symbol "-"] },
  { fixity := .left, operators := [.symbol "<<", .symbol ">>"] },
  { fixity := .left, operators := [.symbol "<=>"] },
  { fixity := .left, operators :=
      [.symbol "==", .symbol "<=", .symbol ">=", .symbol "<", .symbol ">", .symbol "!="] },
  { fixity := .left, operators := [.symbol "&"] },
  { fixity := .left, operators := [.symbol "^"] },
  { fixity := .left, operators := [.symbol "|"] },
  { fixity := .left, operators := [.word "and"] },
  { fixity := .left, operators := [.word "or"] },
  { fixity := .right, operators := [.symbol ":"] },
  { fixity := .left, operators := [.word "in"] },
  { fixity := .right, operators :=
      [.symbol "=", .symbol "+=", .symbol "-=", .symbol "*=", .symbol "/=", .symbol "%=",
       .symbol "<<=", .symbol ">>=", .symbol "&=", .symbol "|=", .symbol "^="] },
  { fixity := .before, operators := [.word "return", .word "yield"] },
  { fixity := .after, operators := [.symbol "..."] }]

namespace Reader

def operator : Operator → Reader String
  | .symbol s => do symbol s; return s
  | .word s => do word s; return s

/-- The first operator of a list that stands here. -/
def firstOf : List Operator → Reader String
  | [] => fail
  | o :: os => operator o <|> firstOf os

/-- Operands joined from the left by operators. -/
def joinLeft (loc : Nat) (first : Node) (more : List (String × Node)) : Node :=
  more.foldl (fun lhs (op, rhs) => Node.ofBinary (binaryOf op) op lhs rhs loc) first

/-- Operands grouped from the left. -/
def leftChain (level : Level) (last : Reader Node) : Reader Node := do
  let loc ← offset
  let first ← last
  let step : Reader (String × Node) := do return (← firstOf level.operators, ← last)
  match ← settle step with
  | none => return first
  | some second =>
    let more ← many step
    if level.isForbidden then
      forbid
    return joinLeft loc first (second :: more)

/-- Operands grouped from the right; at most `n` operators in a row. -/
def rightChain (level : Level) (last : Reader Node) : Nat → Reader Node
  | 0 => last
  | n + 1 => do
    let loc ← offset
    let first ← last
    let step : Reader (String × Node) := do
      return (← firstOf level.operators, ← rightChain level last n)
    match ← settle step with
    | none => return first
    | some (op, rhs) =>
      let more ← many step
      return Node.make (.binary (binaryOf op) op) none (first :: rhs :: more.map (·.2)) loc

/-- Operators before an operand; at most `n` of them in a row. -/
def beforeChain (level : Level) (last : Reader Node) : Nat → Reader Node
  | 0 => last
  | n + 1 => do
    let loc ← offset
    match ← settle (do return (← firstOf level.operators, ← beforeChain level last n)) with
    | none => last
    | some (op, arg) => return Node.ofUnary op arg loc

/-- An operand and the operators after it, of which the first one counts. -/
def afterChain (level : Level) (last : Reader Node) : Reader Node := do
  let loc ← offset
  let first ← last
  match ← many (firstOf level.operators) with
  | [] => return first
  | op :: _ => return Node.make (.trailing op) none [first] loc

end Reader

/-- The reader of a level, from the reader of the next tighter one.  There cannot be more operators
    than characters. -/
def Level.reader (level : Level) (last : Reader Node) : Reader Node := fun c =>
  match level.fixity with
  | .left => Reader.leftChain level last c
  | .right => Reader.rightChain level last c.rest.length c
  | .before => Reader.beforeChain level last c.rest.length c
  | .after => Reader.afterChain level last c

/-- The reader of all levels, from the reader of operands. -/
def readLevels (levels : List Level) (operand : Reader Node) : Reader Node :=
  levels.foldl (fun last level => level.reader last) operand

end Cppward.Grammar
