import Cppward.Layout.Frame

namespace Cppward.Layout

open Text

/-!
# One line of a text

A line is read character by character.  Inside a literal only its closing quote matters; outside,
brackets move the stack, a hash sign ends the line, and angle brackets are counted so that a `>`
that may close a template can be told from a comparison.
-/

/-- The mark after the colon that opens an indented block. -/
def blockMark : Char := '\x07'

/-- The mark after a `>` that closes a template. -/
def templateMark : Char := '\x06'

/-- The state while a line is read. -/
structure Scan where
  /-- What is open, innermost first. -/
  stack : List Frame
  /-- The number of `<` that may open a template and are not yet closed. -/
  angles : Nat
  /-- The last character outside literals that is not blank was a colon. -/
  colonLast : Bool := false
  /-- The characters written so far, last one first. -/
  written : List Char := []
  deriving Repr

/-- Inside a literal every character but its closing quote is kept as it is. -/
def Scan.isInside (s : Scan) (c : Char) : Bool :=
  match s.stack.head? with
  | some .single => c != '\''
  | some .double => c != '"'
  | _ => false

/-- A quote is escaped by one backslash before it, but not by two. -/
def isEscaped : List Char → Bool
  | '\\' :: '\\' :: _ => false
  | '\\' :: _ => true
  | _ => false

/-- A quote opens a literal of its kind, or closes it unless it is escaped. -/
def Scan.quote (s : Scan) (frame : Frame) (back : List Char) : List Frame :=
  if s.stack.head? == some frame then
    if isEscaped back then s.stack else s.stack.tail
  else frame :: s.stack

/-- A `>` closes a template when a bracket follows, or nothing but blanks and a comment. -/
def closesTemplate : List Char → Bool
  | [] => true
  | c :: ahead =>
    if isBlank c then closesTemplate ahead
    else c == '#' || c == '(' || c == '[' || c == '\x7b'

def closeBracket (stack : List Frame) (c : Char) : Except Fault (List Frame) :=
  match stack with
  | [] => .error (.expectedDedent c)
  | top :: rest =>
    match top.closer? with
    | none => .error (.expectedDedent c)
    | some expected => if c == expected then .ok rest else .error (.mismatch expected c)

/-- The effect of the character `c`, where `back` holds the characters of the line before it, last
    one first, and `ahead` those after it.  The result is `none` when a comment starts. -/
def Scan.step (s : Scan) (back : List Char) (c : Char) (ahead : List Char) :
    Except Fault (Option Scan) := do
  if s.isInside c then
    return some { s with written := c :: s.written }
  if c == blockMark then
    throw .bell
  if c == '#' then
    return none
  let s := { s with colonLast := c == ':' || (s.colonLast && isBlank c) }
  let plain (s : Scan) : Scan := { s with written := c :: s.written }
  if let some frame := Frame.ofOpener? c then
    return some (plain { s with stack := frame :: s.stack })
  if isCloser c then
    return some (plain { s with stack := ← closeBracket s.stack c })
  if c == '\'' then
    return some (plain { s with stack := s.quote .single back })
  if c == '"' then
    return some (plain { s with stack := s.quote .double back })
  if c == '<' then
    return some (plain { s with angles := s.angles + 1 })
  if c == '>' && s.angles != 0 then
    let s := { s with angles := s.angles - 1 }
    if closesTemplate ahead then
      return some { s with written := templateMark :: '>' :: s.written }
    return some (plain s)
  return some (plain s)

/-- Reads a line from some point on; the second component is the column of the last character read,
    or of the hash sign that starts a comment. -/
def scanFrom (s : Scan) (back : List Char) : List Char → Except Fault (Scan × Nat)
  | [] => .ok (s, back.length - 1)
  | c :: ahead => do
    match ← s.step back c ahead with
    | none => return (s, back.length)
    | some s' => scanFrom s' (c :: back) ahead

/-- Reads a line whose leading spaces have been removed. -/
def scanLine (stack : List Frame) (angles : Nat) (line : List Char) : Except Fault (Scan × Nat) :=
  scanFrom { stack, angles } [] line

end Cppward.Layout
