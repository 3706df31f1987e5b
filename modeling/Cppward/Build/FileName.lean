namespace Cppward.Build

/-!
# Free file names

A generated file must not share the start of its name with a file that exists.  The name that is
asked for serves as a pattern, in which `[...]` stands for any of some characters; files whose name
starts with a dot are only met by patterns that do so too.
-/

/-- What may stand in one place of a name. -/
inductive Slot where
  | exactly (c : Char)
  /-- A character in one of some ranges, or in none of them. -/
  | oneOf (negated : Bool) (ranges : List (Char × Char))
  deriving DecidableEq, Repr

namespace Slot

/-- The character may stand here. -/
def accepts : Slot → Char → Bool
  | .exactly c, d => c == d
  | .oneOf negated ranges, d => (ranges.any fun (low, high) => low ≤ d && d ≤ high) != negated

/-- The ranges between brackets: `a-c` is a range, any other character stands for itself. -/
def readRanges : List Char → List (Char × Char)
  | low :: '-' :: high :: cs => (low, high) :: readRanges cs
  | c :: cs => (c, c) :: readRanges cs
  | [] => []

/-- The content of brackets up to the one that closes them, which is not the first character, and
    what follows. -/
def splitBrackets : List Char → Option (List Char × List Char)
  | [] => none
  | first :: cs =>
    match cs.span (· != ']') with
    | (content, _ :: rest) => some (first :: content, rest)
    | (_, []) => none

/-- The class of characters that a text in brackets gives, and the text behind it. -/
def readClass (cs : List Char) : Option (Slot × List Char) :=
  match cs with
  | '!' :: cs => (splitBrackets cs).map fun (content, rest) => (.oneOf true (readRanges content), rest)
  | cs => (splitBrackets cs).map fun (content, rest) => (.oneOf false (readRanges content), rest)

/-- Reads a pattern of at most `fuel` places. -/
def readSlots : (fuel : Nat) → List Char → List Slot
  | 0, _ | _, [] => []
  | fuel + 1, c :: cs =>
    if c == '[' then
      match readClass cs with
      | some (slot, rest) => slot :: readSlots fuel rest
      | none => .exactly c :: readSlots fuel cs
    else .exactly c :: readSlots fuel cs

/-- A name starts as a pattern says. -/
def matchStart : List Slot → List Char → Bool
  | [], _ => true
  | _ :: _, [] => false
  | slot :: slots, c :: cs => slot.accepts c && matchStart slots cs

end Slot

/-- The characters that a file name may not hold. -/
def isForbidden (c : Char) : Bool := "\\/:*?\"<>|".toList.contains c

/-- A file is met by a name that is read as a pattern. -/
def isTaken (existing : List String) (name : String) : Bool :=
  let slots := Slot.readSlots name.length name.toList
  let hidden := name.toList.head? == some '.'
  existing.any fun file =>
    (hidden || file.toList.head? != some '.') && Slot.matchStart slots file.toList

/-- The names to try, in order: the name itself, then the name with a number. -/
def candidate (name : String) : Nat → String
  | 0 => name
  | k + 1 => name ++ "_" ++ toString (k + 1)

/-- How many names have to be tried at most: a file meets at most one for each of its
    beginnings. -/
def tries (existing : List String) : Nat :=
  existing.foldl (fun total file => total + file.length + 1) 1

/-- A name that meets no existing file, with an extension. -/
def freeName (existing : List String) (name extension : String) : String :=
  let name := String.ofList (name.toList.filter (!isForbidden ·))
  let free := (List.range (tries existing)).find? fun k => !isTaken existing (candidate name k)
  candidate name (free.getD (tries existing)) ++ extension

end Cppward.Build
