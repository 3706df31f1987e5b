import Cppward.Text.Blank

namespace Cppward.Text

/-!
# Lines, tabs and replacement

Operations on whole texts, each given as a recursion on the list of characters.
-/

/-- The lines of a text without their endings.  A newline at the very end opens no further line. -/
def lines : List Char → List (List Char)
  | [] => []
  | c :: cs =>
    if c == '\n' then [] :: lines cs
    else
      match lines cs with
      | [] => [[c]]
      | l :: ls => (c :: l) :: ls

/-- The characters that end a line in running text. -/
def isLineBreak (c : Char) : Bool :=
  [0xa, 0xb, 0xc, 0xd, 0x1c, 0x1d, 0x1e, 0x85, 0x2028, 0x2029].contains c.toNat

/-- The lines of a text with their endings; a carriage return and the newline after it are one
    ending. -/
def splitLines : List Char → List (List Char)
  | [] => []
  | '\r' :: '\n' :: cs => ['\r', '\n'] :: splitLines cs
  | c :: cs =>
    if isLineBreak c then [c] :: splitLines cs
    else
      match splitLines cs with
      | [] => [[c]]
      | l :: ls => (c :: l) :: ls

/-- Puts `margin` in front of every line that is not blank. -/
def indent (margin : List Char) (cs : List Char) : List Char :=
  (splitLines cs).flatMap fun l => if allBlank l then l else margin ++ l

/-- Expands tabs; `column` is the column of the next character. -/
def expandTabsFrom : Nat → List Char → List Char
  | _, [] => []
  | column, c :: cs =>
    if c == '\t' then
      let width := 8 - column % 8
      List.replicate width ' ' ++ expandTabsFrom (column + width) cs
    else if c == '\n' || c == '\r' then c :: expandTabsFrom 0 cs
    else c :: expandTabsFrom (column + 1) cs

/-- Expands tabs to columns that are multiples of eight. -/
def expandTabs (cs : List Char) : List Char := expandTabsFrom 0 cs

/-- Replacement that first passes over `skip` characters of an occurrence already replaced. -/
def replaceFrom (old new : List Char) : Nat → List Char → List Char
  | _, [] => []
  | skip + 1, _ :: cs => replaceFrom old new skip cs
  | 0, c :: cs =>
    if old.isPrefixOf (c :: cs) then new ++ replaceFrom old new (old.length - 1) cs
    else c :: replaceFrom old new 0 cs

/-- Replaces the occurrences of `old`, which must not be empty, from left to right. -/
def replaceAll (old new : List Char) (cs : List Char) : List Char := replaceFrom old new 0 cs

def replace (old new s : String) : String :=
  String.ofList (replaceAll old.toList new.toList s.toList)

/-- A text occurs somewhere in another one. -/
def occursIn (part : List Char) : List Char → Bool
  | [] => part.isEmpty
  | c :: cs => part.isPrefixOf (c :: cs) || occursIn part cs

/-- Line endings of files: a carriage return, alone or before a newline, is read as a newline. -/
def readNewlines : List Char → List Char
  | [] => []
  | '\r' :: '\n' :: cs => '\n' :: readNewlines cs
  | c :: cs => (if c == '\r' then '\n' else c) :: readNewlines cs

end Cppward.Text
