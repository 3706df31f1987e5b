import Cppward.Indented.Statement
import Cppward.Text.Lines

namespace Cppward.Indented

open Text

/-!
# Reading statements in indented blocks

A block is a run of lines that start in one column, further right than the line that opens it.

Expressions are not looked into, except that brackets and quotes hide what stands between them.
-/

variable (cs : List Char)

/-- A line that is not blank, without its margin. -/
structure Line where
  column : Nat
  text : List Char
  deriving Repr

/-- Where a scan stands with regard to brackets and quotes. -/
structure Nesting where
  open_ : Nat := 0
  quote : Option Char := none
  escaped : Bool := false

namespace Nesting

/-- Nothing hides the next character. -/
def isOutside (s : Nesting) : Bool := s.open_ == 0 && s.quote.isNone

def step (s : Nesting) (c : Char) : Nesting :=
  match s.quote with
  | some q =>
    if s.escaped then { s with escaped := false }
    else if c == '\\' then { s with escaped := true }
    else if c == q then { s with quote := none }
    else s
  | none =>
    if c == '"' || c == '\'' then { s with quote := some c }
    else if c == '(' || c == '[' || c == '\x7b' then { s with open_ := s.open_ + 1 }
    else if c == ')' || c == ']' || c == '\x7d' then { s with open_ := s.open_ - 1 }
    else s

end Nesting

/-- Splits a text at the first place outside brackets and quotes where `mark` stands; the mark is
    dropped. -/
def splitAt (mark : List Char) (s : Nesting) : List Char → Option (List Char × List Char)
  | [] => none
  | c :: cs =>
    if s.isOutside && mark.isPrefixOf (c :: cs) then some ([], (c :: cs).drop mark.length)
    else (splitAt mark (s.step c) cs).map fun (before, after) => (c :: before, after)

/-- Splits a text at every place outside brackets and quotes where `mark` stands. -/
def splitAll (mark : Char) (s : Nesting) : List Char → List (List Char)
  | [] => [[]]
  | c :: cs =>
    if s.isOutside && c == mark then [] :: splitAll mark {} cs
    else
      match splitAll mark (s.step c) cs with
      | [] => [[c]]
      | part :: parts => (c :: part) :: parts

/-- The text up to a remark. -/
def dropRemark : List Char :=
  match splitAt ['#'] {} cs with
  | some (before, _) => before
  | none => cs

/-- The lines of a text that are not blank. -/
def readLines (source : String) : List Line :=
  (lines (readNewlines source.toList)).filterMap fun l =>
    let text := strip (dropRemark l)
    if text.isEmpty then none
    else some { column := (l.takeWhile isBlank).length, text }

/-- The start of a compound statement. -/
inductive Header where
  | define (name params : String) (returns : Option String)
  | branch (test : String)
  | elseBranch (test : String)
  | otherwise
  | loop (target range : String)
  deriving Repr

/-- A text without blanks at its ends. -/
def trimmed : String := String.ofList (strip cs)

/-- An expression list gets parentheses. -/
def grouped : String :=
  if (splitAt [','] {} cs).isSome then "(" ++ trimmed cs ++ ")" else trimmed cs

/-- What follows a keyword at the start of a text. -/
def afterWord (word : String) (cs : List Char) : Option (List Char) :=
  if word.toList.isPrefixOf cs then
    let rest := cs.drop word.length
    if (rest.head?.map fun c => c.isAlphanum || c == '_' || 128 ≤ c.toNat).getD false then none else some rest
  else none

/-- The name, parameters and result of a definition. -/
def readDefinition : Option Header := do
  let name := cs.takeWhile (· != '(')
  let rest := (cs.dropWhile (· != '(')).drop 1
  let (params, rest) ← splitAt [')'] {} rest
  let returns := (splitAt ['-', '>'] {} rest).map fun (_, type) => trimmed type
  return .define (trimmed name) (trimmed params) returns

/-- The header in a line without the colon that ends it. -/
def readHeader : Option Header :=
  match afterWord "def" cs with
  | some rest => readDefinition rest
  | none =>
  match afterWord "if" cs with
  | some rest => some (.branch (trimmed rest))
  | none =>
  match afterWord "elif" cs with
  | some rest => some (.elseBranch (trimmed rest))
  | none =>
  match afterWord "for" cs with
  | some rest => (splitAt " in ".toList {} rest).map fun (target, range) =>
      .loop (grouped target) (grouped range)
  | none =>
  match afterWord "else" cs with
  | some rest => if allBlank rest then some .otherwise else none
  | none => none

/-- The line starts with the keyword of a compound statement. -/
def startsCompound : Bool :=
  ["def", "if", "elif", "for", "else"].any fun word => (afterWord word cs).isSome

/-- A line that starts a compound statement: its header, and what stands behind the colon. -/
def splitHeader : Option (Header × List Char) := do
  if cs.getLast? == some ':' then
    return (← readHeader cs.dropLast, [])
  let (head, rest) ← splitAt [':'] {} cs
  return (← readHeader head, strip rest)

def simpleStatements : List Statement :=
  (splitAll ';' {} cs).filterMap fun part =>
    if allBlank part then none else some (.simple (trimmed part))

mutual
/-- Reads the statements of the block whose lines start in `column`, and leaves the lines after
    it. -/
def readBlock : (fuel column : Nat) → List Line → Option (List Statement × List Line)
  | 0, _, _ => none
  | _, _, [] => some ([], [])
  | fuel + 1, column, l :: ls =>
    if l.column < column then some ([], l :: ls)
    else if column < l.column then none
    else if !startsCompound l.text then do
      let (rest, left) ← readBlock fuel column ls
      return (simpleStatements l.text ++ rest, left)
    else do
      let (header, inLine) ← splitHeader l.text
      let (body, ls) ← readBody fuel column inLine ls
      let (statement, ls) ← match header with
        | .define name params returns => some (Statement.define name params returns body, ls)
        | .branch test => do
          let (otherwise, ls) ← readAlternative fuel column true ls
          pure (Statement.branch test body otherwise, ls)
        | .loop target range => do
          let (otherwise, ls) ← readAlternative fuel column false ls
          pure (Statement.loop target range body otherwise, ls)
        | .elseBranch _ | .otherwise => none
      let (rest, left) ← readBlock fuel column ls
      return (statement :: rest, left)

/-- Reads the block that a header in `column` opens: the rest of its line if there is one, the lines
    further right otherwise. -/
def readBody : (fuel column : Nat) → (inLine : List Char) → List Line →
    Option (List Statement × List Line)
  | 0, _, _, _ => none
  | fuel + 1, column, inLine, ls =>
    if !inLine.isEmpty then some (simpleStatements inLine, ls)
    else
      match ls with
      | [] => none
      | first :: _ => if column < first.column then readBlock fuel first.column ls else none

/-- Reads what belongs to a branch or a loop behind its first block.  Only a branch may go on with
    another test. -/
def readAlternative : (fuel column : Nat) → (isBranch : Bool) → List Line →
    Option (List Statement × List Line)
  | 0, _, _, _ => none
  | _, _, _, [] => some ([], [])
  | fuel + 1, column, isBranch, l :: ls =>
    if l.column != column then some ([], l :: ls)
    else
      match splitHeader l.text with
      | some (.otherwise, inLine) => readBody fuel column inLine ls
      | some (.elseBranch test, inLine) => do
        guard isBranch
        let (body, ls) ← readBody fuel column inLine ls
        let (otherwise, ls) ← readAlternative fuel column isBranch ls
        return ([.branch test body otherwise], ls)
      | _ => some ([], l :: ls)
end

/-- Reads a program; there is no result if its blocks are not formed as they should be. -/
def read (source : String) : Option (List Statement) := do
  let ls := readLines source
  let (statements, left) ← readBlock (2 * ls.length + 2) 0 ls
  guard left.isEmpty
  return statements

end Cppward.Indented
