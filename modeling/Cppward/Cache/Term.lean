import Cppward.Text.Blank

namespace Cppward.Cache

/-!
# Constructor expressions

Trees are kept in files as expressions of nested constructor calls.  This module reads the text of
such an expression; what the constructors mean is said elsewhere.
-/

inductive Term where
  | name (text : String)
  | number (n : Nat)
  | text (s : String)
  | list (items : List Term)
  | apply (name : String) (args : List Term)
  deriving Repr, Inhabited

def isNameChar (c : Char) : Bool := c.isAlphanum || c == '_'

/-- What an escape sequence in a text stands for, by the character behind the backslash. -/
def unescape (c : Char) : List Char :=
  match c with
  | 'n' => ['\n']
  | 't' => ['\t']
  | 'r' => ['\r']
  | '\\' | '"' | '\'' => [c]
  | c => ['\\', c]

/-- The rest of a text that is closed by `quote`, and what follows it.  A text ends on its line. -/
def readText (quote : Char) : List Char → Option (List Char × List Char)
  | [] => none
  | '\\' :: c :: cs => (readText quote cs).map fun (text, rest) => (unescape c ++ text, rest)
  | c :: cs =>
    if c == '\n' then none
    else if c == quote then some ([], cs)
    else (readText quote cs).map fun (text, rest) => (c :: text, rest)

/-- The number that digits stand for. -/
def digitsValue (cs : List Char) : Nat := cs.foldl (fun n c => 10 * n + (c.toNat - '0'.toNat)) 0

mutual
/-- Reads an expression at the start of a text, and gives the rest. -/
def readTerm : (fuel : Nat) → List Char → Option (Term × List Char)
  | 0, _ => none
  | fuel + 1, cs =>
    match cs.dropWhile Text.isGap with
    | [] => none
    | c :: cs =>
      if c == '"' || c == '\'' then
        (readText c cs).map fun (text, rest) => (.text (String.ofList text), rest)
      else if c == '[' then
        (readTerms ']' fuel cs).map fun (items, rest) => (.list items, rest)
      else if c.isDigit then
        some (.number (digitsValue (c :: cs.takeWhile Char.isDigit)), cs.dropWhile Char.isDigit)
      else if isNameChar c then
        let name := String.ofList (c :: cs.takeWhile isNameChar)
        match (cs.dropWhile isNameChar).dropWhile Text.isGap with
        | '(' :: rest => (readTerms ')' fuel rest).map fun (args, rest) => (.apply name args, rest)
        | rest => some (.name name, rest)
      else none

/-- Reads expressions up to the bracket that closes them; each may be followed by a comma, and all
    but the last have to be. -/
def readTerms (close : Char) : (fuel : Nat) → List Char → Option (List Term × List Char)
  | 0, _ => none
  | fuel + 1, cs =>
    match cs.dropWhile Text.isGap with
    | [] => none
    | c :: cs =>
      if c == close then some ([], cs)
      else do
        let (t, rest) ← readTerm fuel (c :: cs)
        match rest.dropWhile Text.isGap with
        | ',' :: rest =>
          let (ts, rest) ← readTerms close fuel rest
          return (t :: ts, rest)
        | c :: rest => if c == close then some ([t], rest) else none
        | [] => none
end

def Term.read (cs : List Char) : Option Term :=
  match readTerm (2 * cs.length + 2) cs with
  | some (t, rest) => if Text.allBlank rest then some t else none
  | none => none

end Cppward.Cache
