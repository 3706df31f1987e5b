import Cppward.Layout.Line
import Cppward.Proofs.Failing

namespace Cppward.Layout

open List

/-!
# Brackets of a text

What it means that a text does not end inside a bracket or a literal, said without the stack that
the layout keeps.

* `Marks`, `marks` — the brackets of a text outside its literals, and the literal it ends in.
* `Leaves` — words that leave some brackets open, which is what a stack of frames records.
-/

/-! ### Words of brackets -/

def bracketPairs : List (Char × Char) := [('(', ')'), ('[', ']'), ('\x7b', '\x7d')]

/-- Words of brackets in which every bracket is closed by its own kind, and inner ones before outer
    ones. -/
inductive Balanced : List Char → Prop
  | nil : Balanced []
  | pair {opening closing : Char} {inner rest : List Char}
      (hpair : (opening, closing) ∈ bracketPairs) (hinner : Balanced inner)
      (hrest : Balanced rest) :
      Balanced (opening :: inner ++ closing :: rest)

theorem Balanced.append {u v : List Char} (hu : Balanced u) (hv : Balanced v) :
    Balanced (u ++ v) := by
  induction hu with
  | nil => exact hv
  | @pair opening closing inner rest hpair hinner _ _ ih =>
    have h := Balanced.pair hpair hinner ih
    rwa [← cons_append, ← append_assoc] at h

/-- A frame of brackets, with the bracket that opens it. -/
def Frame.opener? : Frame → Option Char
  | .paren => some '('
  | .square => some '['
  | .curly => some '\x7b'
  | _ => none

def Frame.quote? : Frame → Option Char
  | .single => some '\''
  | .double => some '"'
  | _ => none

def openBrackets (stack : List Frame) : List Frame := stack.filter fun f => f.opener?.isSome

/-- Words that leave the brackets in `open_` open, innermost first. -/
inductive Leaves : List Frame → List Char → Prop
  | none {w : List Char} (h : Balanced w) : Leaves [] w
  | more {frame : Frame} {frames : List Frame} {opening : Char} {w u : List Char}
      (hw : Leaves frames w) (hopening : frame.opener? = some opening) (hu : Balanced u) :
      Leaves (frame :: frames) (w ++ opening :: u)

namespace Leaves

variable {frame : Frame} {frames : List Frame} {opening closing : Char} {w u : List Char}

theorem balanced (h : Leaves [] w) : Balanced w := by
  cases h with
  | none h => exact h

theorem append (h : Leaves frames w) (hu : Balanced u) : Leaves frames (w ++ u) := by
  cases h with
  | none h => exact .none (h.append hu)
  | more hw hopening hv =>
    rw [append_assoc, cons_append]
    exact .more hw hopening (hv.append hu)

theorem push (h : Leaves frames w) (hopening : frame.opener? = some opening) :
    Leaves (frame :: frames) (w ++ [opening]) := .more h hopening .nil

theorem pop (h : Leaves (frame :: frames) w) (hclosing : frame.closer? = some closing) :
    Leaves frames (w ++ [closing]) := by
  cases h with
  | @more _ _ opening w' u hw hopening hu =>
    have hpair : (opening, closing) ∈ bracketPairs := by
      cases frame <;> cases hopening <;> cases hclosing <;> decide
    have h := hw.append (Balanced.pair hpair hu .nil)
    rwa [← append_assoc] at h

end Leaves

/-! ### Brackets and literals of a text -/

/-- What has been met in a text so far. -/
structure Marks where
  /-- The quote of the literal that is open. -/
  literal : Option Char := none
  /-- The characters so far, last one first. -/
  back : List Char := []
  /-- The brackets outside literals. -/
  brackets : List Char := []

/-- A quote of either kind. -/
def isQuote (c : Char) : Bool := c == '\'' || c == '"'

def isBracket (c : Char) : Bool := bracketPairs.any fun p => c == p.1 || c == p.2

/-- The effect of a character.  A literal ends at its quote, unless that is escaped. -/
def Marks.step (m : Marks) (c : Char) : Marks :=
  match m.literal with
  | some quote =>
    { m with
      literal := if c == quote && !isEscaped m.back then none else some quote
      back := c :: m.back }
  | none =>
    { literal := if isQuote c then some c else none
      back := c :: m.back
      brackets := if isBracket c then m.brackets ++ [c] else m.brackets }

def marks (text : List Char) : Marks := text.foldl Marks.step {}

/-- The text ends outside literals, and its brackets outside literals are balanced. -/
def Closed (text : List Char) : Prop :=
  (marks text).literal = none ∧ Balanced (marks text).brackets

theorem marks_append (text more : List Char) :
    marks (text ++ more) = more.foldl Marks.step (marks text) := foldl_append

/-- A character that is neither quote nor bracket is passed over. -/
theorem Marks.step_of_neutral {m : Marks} {c : Char} (hliteral : ∀ q ∈ m.literal, isQuote q = true)
    (hquote : isQuote c = false) (hbracket : isBracket c = false) :
    m.step c = { m with back := c :: m.back } := by
  cases hm : m.literal with
  | none =>
    simp [Marks.step, hm, hquote, hbracket]
  | some q =>
    have hne : c ≠ q := by
      rintro rfl
      rw [hliteral c hm] at hquote
      cases hquote
    simp [Marks.step, hm, hne]

end Cppward.Layout
