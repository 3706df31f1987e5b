namespace Cppward.Text

/-!
# Blank characters

Two notions of blank are in use.  A line, a block of lines and the text of a literal are trimmed
of every character that Unicode counts as a space or a separator (`isBlank`); between two tokens
of the grammar only four characters may stand (`isGap`).
-/

/-- The code points of the blank characters that lie above ASCII. -/
def wideBlanks : List Nat :=
  [0x85, 0xa0, 0x1680, 0x2000, 0x2001, 0x2002, 0x2003, 0x2004, 0x2005, 0x2006, 0x2007, 0x2008,
   0x2009, 0x200a, 0x2028, 0x2029, 0x202f, 0x205f, 0x3000]

/-- Spaces, tabs, line and paragraph separators, and the four ASCII information separators. -/
def isBlank (c : Char) : Bool :=
  let n := c.toNat
  (9 ≤ n && n ≤ 13) || (28 ≤ n && n ≤ 32) || wideBlanks.contains n

/-- The characters that may separate two tokens. -/
def isGap (c : Char) : Bool :=
  c == ' ' || c == '\n' || c == '\t' || c == '\r'

/-- Every token gap is blank. -/
theorem isBlank_of_isGap {c : Char} (h : isGap c = true) : isBlank c = true := by
  simp only [isGap, Bool.or_eq_true, beq_iff_eq] at h
  rcases h with ((rfl | rfl) | rfl) | rfl <;> decide

/-- Drops the blanks at the end. -/
def stripRight (cs : List Char) : List Char :=
  (cs.reverse.dropWhile isBlank).reverse

/-- Drops the blanks at both ends. -/
def strip (cs : List Char) : List Char :=
  stripRight (cs.dropWhile isBlank)

/-- A text is blank when nothing is left after trimming. -/
def allBlank (cs : List Char) : Bool := cs.all isBlank

/-- Drops every blank. -/
def squeeze (cs : List Char) : List Char := cs.filter fun c => !isBlank c

end Cppward.Text
