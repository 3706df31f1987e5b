import Cppward.Grammar.Token

namespace Cppward.Grammar

/-!
# Branch words

An `if` is a call, and its further branches are arguments of the call: `if (a: b, elif: c: d, else: e)`.
The words `elif`, `else` and `except` may be written without the commas and colons that this
form needs; `completeBranches` puts them in.

* `elif` becomes `,elif:`, but `,elif` when a colon follows already,
* `else` becomes `,else`,
* `except` becomes `except:` unless a colon follows already.

Words inside literals are left alone.  A word that gets a colon also takes the literals right
behind it out of the text.
-/

/-- A literal at the cursor, in quotes of either kind: the cursor after it. -/
def Cursor.literalEnd? (c : Cursor) : Option Cursor :=
  match (Reader.quoted '"' c).value with
  | some (_, c') => some c'
  | none => (Reader.quoted '\'' c).value.map (·.2)

/-- The cursor after the literals that follow, with the gaps before them; at most `n` of them. -/
def Cursor.skipLiterals : Nat → Cursor → Cursor
  | 0, c => c
  | n + 1, c =>
    match c.skipGaps.literalEnd? with
    | some c' => skipLiterals n c'
    | none => c

/-- What is written for a branch word at the cursor, and where reading goes on. -/
def Cursor.branchWord? (c : Cursor) : Option (String × Cursor) :=
  let open_ (word : String) : Cursor × Bool :=
    let after := (c.advance word.length).skipLiterals c.rest.length
    (after, after.skipGaps.rest.head? == some ':')
  if c.isAtWord "elif".toList then
    let (after, hasColon) := open_ "elif"
    if hasColon then some (",elif", c.advance 4) else some (",elif:", after)
  else if c.isAtWord "except".toList then
    let (after, hasColon) := open_ "except"
    if hasColon then none else some ("except:", after)
  else if c.isAtWord "else".toList then some (",else", c.advance 4)
  else none

/-- Completes branch words from the cursor on; `n` bounds the number of steps. -/
def Cursor.completeFrom : Nat → Cursor → List Char
  | 0, c => c.rest
  | n + 1, c =>
    let start := (c.skipLiterals c.rest.length).skipGaps
    let passed := c.rest.take (start.pos - c.pos)
    match start.branchWord? with
    | some (text, after) => passed ++ text.toList ++ completeFrom n after
    | none =>
      match start.rest with
      | [] => passed
      | x :: _ => passed ++ x :: completeFrom n start.next

/-- Puts in the commas and colons that branch words leave out. -/
def completeBranches (text : List Char) : List Char :=
  Cursor.completeFrom (text.length + 1) { rest := text }

end Cppward.Grammar
