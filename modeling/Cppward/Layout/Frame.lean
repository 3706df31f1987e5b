import Cppward.Text.Blank

namespace Cppward.Layout

/-!
# Frames of the layout stack

While a text is laid out, a stack records what is open: indented blocks, brackets and string
literals.  `Frame` lists what may stand on it, `Fault` what can be wrong with a line.
-/

/-- What is open at some point of a text. -/
inductive Frame where
  /-- An indented block, or the outermost level of the text. -/
  | indent
  | paren
  | square
  | curly
  /-- A literal between single quotes. -/
  | single
  /-- A literal between double quotes. -/
  | double
  deriving DecidableEq, Repr

/-- The character that closes a frame; an indented block is closed by indentation alone. -/
def Frame.closer? : Frame → Option Char
  | .indent => none
  | .paren => some ')'
  | .square => some ']'
  | .curly => some '\x7d'
  | .single => some '\''
  | .double => some '"'

/-- The frame that an opening bracket pushes. -/
def Frame.ofOpener? : Char → Option Frame
  | '(' => some .paren
  | '[' => some .square
  | '\x7b' => some .curly
  | _ => none

def isCloser (c : Char) : Bool := c == ')' || c == ']' || c == '\x7d'

/-- Columns per level of indentation. -/
def tabWidth : Nat := 4

/-- The column at which a statement of the innermost open block starts. -/
def column (stack : List Frame) : Nat := (stack.count .indent - 1) * tabWidth

/-- Why a line cannot be laid out. -/
inductive Fault where
  /-- The mark of an opened block stands in the text itself. -/
  | bell
  /-- A bracket is closed by the wrong character. -/
  | mismatch (expected got : Char)
  /-- A bracket is closed inside an indented block that is still open. -/
  | expectedDedent (got : Char)
  /-- The text ends inside a bracket or a literal. -/
  | unclosed
  /-- The line after the opening of a block is not indented. -/
  | firstIndented (expected got : Nat)
  /-- A dedent by a number of columns that is no multiple of the width of a level. -/
  | notMultiple
  /-- A dedent that would leave a bracket open. -/
  | tooManyDedents
  /-- A line that is indented too far. -/
  | indentation (expected got : Nat)
  deriving DecidableEq, Repr

/-- Faults of indentation are reported as such. -/
def Fault.isIndentation : Fault → Bool
  | .firstIndented .. | .notMultiple | .tooManyDedents | .indentation .. => true
  | _ => false

/-- The wording of a fault, without the line. -/
def Fault.text : Fault → String
  | .bell => "no BEL"
  | .mismatch expected got => s!"Expected {expected} got {got} "
  | .expectedDedent got => s!"Expected dedent got {got}"
  | .unclosed => "EOF: expected a closing )"
  | .firstIndented expected got =>
    s!"Error in what should be the first indented expression. Expected indent: {expected}. Got: {got}"
  | .notMultiple => s!"Indentation not a multible of {tabWidth}"
  | .tooManyDedents => "Too many de-indents!"
  | .indentation expected got => s!"Indentation error. Expected: {expected} got: {got}"

/-- A fault and the number of the line where it shows. -/
structure Error where
  fault : Fault
  line : Nat
  deriving DecidableEq, Repr

def Error.message (e : Error) : String := s!"{e.fault.text}. Line {e.line}."

end Cppward.Layout
