import Cppward.Layout.Line
import Cppward.Text.Lines

namespace Cppward.Layout

open Text

/-!
# Blocks of a text

A text is laid out line by line.  Indentation is checked against the stack of open frames, a line
that ends in a colon inside parentheses opens an indented block, and every other line of an
indented block is ended by a semicolon.  Each statement of the outermost level ends a block: the
blocks are read by the grammar one at a time, and start with as many newlines as there are lines
before them.
-/

/-- A part of the text that is read on its own, with the number of the line after which it
    starts. -/
structure Block where
  line : Nat
  text : List Char
  deriving DecidableEq, Repr

/-- The state between two lines. -/
structure Progress where
  /-- What is open, innermost first. -/
  stack : List Frame := [.indent]
  /-- The number of `<` that may open a template. -/
  angles : Nat := 0
  /-- The line before opened an indented block. -/
  began : Bool := false
  /-- The text written so far. -/
  whole : List Char := []
  /-- The lines that were replaced by a stand-in, latest first. -/
  hidden : List (List Char × List Char) := []
  /-- The finished blocks, latest first. -/
  finished : List Block := []
  /-- The block that is being written. -/
  current : Block := ⟨0, []⟩
  deriving Repr

/-- Closes indented blocks, innermost first. -/
def popIndents : Nat → List Frame → Except Fault (List Frame)
  | 0, stack => .ok stack
  | k + 1, .indent :: stack => popIndents k stack
  | _ + 1, _ => .error .tooManyDedents

/-- The stack at the start of a line that is indented by `width` spaces.  Inside brackets and
    literals, and for a comment, indentation is free. -/
def checkIndent (p : Progress) (width : Nat) (isComment : Bool) : Except Fault (List Frame) := do
  let expected := column p.stack
  if p.stack.head? != some .indent || isComment then
    return p.stack
  if width < expected then
    if p.began then
      throw (.firstIndented expected width)
    let diff := expected - width
    if diff % tabWidth != 0 then
      throw .notMultiple
    popIndents (diff / tabWidth) p.stack
  else if width != expected then
    throw (.indentation expected width)
  else
    return p.stack

/-- The stand-in for line `line` whose reading stopped at column `col`. -/
def standIn (line col : Nat) : List Char := s!"ceto_priv_dummy{line}c{col};".toList

/-- The effect of line number `number`, which is not blank.  With `hide`, a line that is a whole
    statement is replaced by a stand-in in the whole text. -/
def Progress.fullLine (hide : Bool) (p : Progress) (number : Nat) (raw : List Char) :
    Except Fault Progress := do
  let width := (raw.takeWhile (· == ' ')).length
  let line := raw.dropWhile (· == ' ')
  let stack ← checkIndent p width (line.head? == some '#')
  let margin := '\n' :: List.replicate width ' '
  let startsStatement := stack.head? == some .indent
  let (scan, stop) ← scanLine stack p.angles line
  let written := scan.written.reverse
  let p := { p with
    whole := p.whole ++ margin
    current := { p.current with text := p.current.text ++ margin } }
  if scan.stack.head? == some .paren && scan.colonLast then
    let written := written ++ [blockMark]
    return { p with
      stack := .indent :: scan.stack
      angles := scan.angles
      began := true
      whole := p.whole ++ written
      current := { p.current with text := p.current.text ++ written } }
  if scan.stack.head? == some .indent && !allBlank written then
    let written := written ++ [';']
    let dummy := standIn number (stop + width)
    let replaced := hide && startsStatement
    let current := { p.current with text := p.current.text ++ written }
    let isOutermost := scan.stack.length == 1
    return { p with
      stack := scan.stack
      angles := 0
      began := false
      whole := p.whole ++ (if replaced then dummy else written)
      hidden := if replaced then (dummy, written) :: p.hidden else p.hidden
      finished := if isOutermost then current :: p.finished else p.finished
      current := if isOutermost then ⟨number, List.replicate number '\n'⟩ else current }
  return { p with
    stack := scan.stack
    angles := scan.angles
    began := false
    whole := p.whole ++ written
    current := { p.current with text := p.current.text ++ written } }

/-- The effect of line number `number`.  A blank line leaves an empty line in the whole text and
    nothing in the blocks. -/
def Progress.line (hide : Bool) (p : Progress) (number : Nat) (raw : List Char) :
    Except Error Progress :=
  let raw := stripRight raw
  if raw.isEmpty then
    .ok { p with whole := p.whole ++ ['\n'] }
  else
    match p.fullLine hide number raw with
    | .ok p => .ok p
    | .error fault => .error ⟨fault, number⟩

/-- The effect of the lines from number `number` on. -/
def Progress.lines (hide : Bool) (p : Progress) (number : Nat) :
    List (List Char) → Except Error (Progress × Nat)
  | [] => .ok (p, number - 1)
  | raw :: rest => do
    let p ← p.line hide number raw
    p.lines hide (number + 1) rest

/-- A text that has been laid out. -/
structure Arrangement where
  /-- The whole text as one. -/
  whole : List Char
  /-- Stand-ins and the lines that they stand for, in the order of the text. -/
  hidden : List (List Char × List Char)
  /-- The blocks, in the order of the text. -/
  blocks : List Block
  deriving Repr

/-- Lays out a text.  At the end nothing but indented blocks may be open. -/
def layout (text : List Char) (hide : Bool := false) : Except Error Arrangement := do
  let (p, last) ← Progress.lines hide {} 1 (Text.lines text)
  if p.stack.any (· != .indent) then
    throw ⟨.unclosed, last⟩
  return {
    whole := p.whole
    hidden := p.hidden.reverse
    blocks := (p.current :: p.finished).reverse }

end Cppward.Layout
