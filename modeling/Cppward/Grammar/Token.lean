import Cppward.Grammar.Reader
import Cppward.Node.Basic
import Cppward.Text.Digit
import Cppward.Text.Lines

namespace Cppward.Grammar

open Text

/-!
# Tokens

Gaps may stand before a token, except where a reader is said to be touching: the affixes and the
quotes of a literal, and a number and its suffix, stand side by side.
-/

/-- The characters that may belong to a keyword or a name next to it. -/
def isWordChar (c : Char) : Bool := c.isAlphanum || c == '_' || c == '$'

def isNameStart (c : Char) : Bool := c.isAlpha || c == '_'

/-- A further character of a name. -/
def isNameChar (c : Char) : Bool := c.isAlphanum || c == '_'

namespace Reader

/-- The characters of `s`, touching. -/
def exactly (s : List Char) : Reader Unit := fun c =>
  if s.isPrefixOf c.rest then { value := some ((), c.advance s.length) } else { value := none }

/-- A longest run of characters that satisfy `p`, touching; at least one. -/
def run1 (p : Char → Bool) : Reader (List Char) := fun c =>
  let taken := c.rest.takeWhile p
  if taken.isEmpty then { value := none } else { value := some (taken, c.advance taken.length) }

/-- A run of characters that satisfy `p`, touching; possibly empty. -/
def run (p : Char → Bool) : Reader (List Char) := fun c =>
  let taken := c.rest.takeWhile p
  { value := some (taken, c.advance taken.length) }

def symbol (s : String) : Reader Unit := do
  gaps
  exactly s.toList

end Reader

/-- The keyword `s` stands at the cursor: no character of a word is right before or after it. -/
def Cursor.isAtWord (s : List Char) (c : Cursor) : Bool :=
  s.isPrefixOf c.rest
    && !((c.rest.drop s.length).head?.map isWordChar).getD false
    && !(c.prev.map isWordChar).getD false

namespace Reader

/-- A keyword, touching. -/
def wordHere (s : String) : Reader Unit := fun c =>
  if c.isAtWord s.toList then { value := some ((), c.advance s.toList.length) }
  else { value := none }

def word (s : String) : Reader Unit := do
  gaps
  wordHere s

end Reader

/-- The operators that are words and never names. -/
def reservedWords : List String := ["not", "and", "or", "in"]

namespace Reader

def identHere : Reader Affix := fun c =>
  if reservedWords.any fun w => c.isAtWord w.toList then { value := none }
  else
    match c.rest with
    | [] => { value := none }
    | x :: rest =>
      if isNameStart x then
        let taken := x :: rest.takeWhile isNameChar
        { value := some (⟨String.ofList taken, c.pos⟩, c.advance taken.length) }
      else { value := none }

def ident : Reader Node := do
  gaps
  let a ← identHere
  return Node.ident a.name a.loc

/-- A number with a decimal point. -/
def float : Reader Node := do
  let loc ← offset
  gaps
  let whole ← run1 isDecimal
  exactly ['.']
  let fraction ← run isDecimal
  let tail ← attempt identHere
  return Node.make (.float (String.ofList (whole ++ '.' :: fraction)) tail) none [] loc

/-- A number without a decimal point. -/
def integer : Reader Node := do
  let loc ← offset
  gaps
  let digits ← run1 isDecimal
  let tail ← attempt identHere
  return Node.make (.int (String.ofList digits) tail) none [] loc

end Reader

/-- The characters before the closing quote, as written, and what follows it.  A backslash takes
    the next character with it. -/
def untilQuote (quote : Char) : List Char → Option (List Char × List Char)
  | [] => none
  | c :: cs =>
    if c == quote then some ([], cs)
    else if c == '\\' then
      match cs with
      | [] => none
      | d :: ds => (untilQuote quote ds).map fun (inner, rest) => (c :: d :: inner, rest)
    else (untilQuote quote cs).map fun (inner, rest) => (c :: inner, rest)

/-- The characters that an escape sequence of white space stands for. -/
def whiteEscape? : Char → Option Char
  | 't' => some '\t'
  | 'n' => some '\n'
  | 'f' => some '\x0c'
  | 'r' => some '\r'
  | _ => none

/-- The characters that the inside of a literal stands for.  A backslash at the end of a line stays
    as it is. -/
def unescape : List Char → List Char
  | [] => []
  | '\\' :: c :: cs =>
    match whiteEscape? c with
    | some w => w :: unescape cs
    | none => if c == '\n' then '\\' :: c :: unescape cs else c :: unescape cs
  | c :: cs => c :: unescape cs

/-- The word that stands for an escaped backslash while a text is laid out and read. -/
def backslashWord : String := "CETO_PRIVATE_ESCAPED_ESCAPED"

/-- The word that stands for the start of a Unicode escape. -/
def unicodeWord : String := "CETO_PRIVATE_ESCAPED_UNICODE"

/-- The value of a literal, from the characters between its quotes. -/
def literalValue (inner : List Char) : String :=
  String.ofList (replaceAll backslashWord.toList ['\\'] (unescape inner))

namespace Reader

/-- A quoted text, touching. -/
def quoted (quote : Char) : Reader (List Char) := fun c =>
  match c.rest with
  | [] => { value := none }
  | x :: rest =>
    if x == quote then
      match untilQuote quote rest with
      | none => { value := none }
      | some (inner, _) => { value := some (inner, c.advance (inner.length + 2)) }
    else { value := none }

/-- A string literal with its affixes. -/
def literal (quote : Char) : Reader Node := do
  let loc ← offset
  gaps
  let lead ← attempt identHere
  let inner ← quoted quote
  let tail ← attempt identHere
  return Node.make (.str (literalValue inner) lead tail) none [] loc

end Reader

end Cppward.Grammar
