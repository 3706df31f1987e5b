import Cppward.Node.Basic
import Cppward.Text.Lines

namespace Cppward

/-!
# Printed forms of nodes

Two texts are made from a tree.

* `Node.text` — the short form that messages quote,
* `Node.constructorText` — an expression of nested constructor calls from which the tree can be
  built again.  A `Style` says whether offsets are written, and whether lists of arguments are
  marked with the type of their elements.
-/

variable (s : Style)

/-- The text of a string literal between double quotes: backslashes, newlines and double quotes are
    escaped. -/
def escape (s : String) : String :=
  let s := Text.replace "\\" "\\\\" s
  let s := Text.replace "\n" "\\n" s
  let s := Text.replace "\"" "\\\"" s
  "\"" ++ s ++ "\""

/-- The name of an affix, nothing if there is none. -/
def affixText (a : Option Affix) : String := (a.map Affix.name).getD ""

/-- The text of a literal with its affixes. -/
def literalText (text : String) (lead tail : Option Affix) : String :=
  affixText lead ++ escape text ++ affixText tail

namespace Node

mutual
def text : Node → String
  | ⟨_, kind, func, args, _⟩ =>
    match kind with
    | .name s => s
    | .int digits tail | .float digits tail => digits ++ affixText tail
    | .str s lead tail => literalText s lead tail
    | .unary op => "(" ++ op ++ " " ++ ", ".intercalate (textList args) ++ ")"
    | .trailing op => "(" ++ ", ".intercalate (textList args) ++ " " ++ op ++ ")"
    | .binary .attribute _ => ".".intercalate (textList args)
    | .binary .named _ => "NamedParameter(" ++ ", ".intercalate (textList args) ++ ")"
    | .binary _ op => "(" ++ (" " ++ op ++ " ").intercalate (textList args) ++ ")"
    | .call _ => textOption func ++ "(" ++ ", ".intercalate (textList args) ++ ")"
    | .index => textOption func ++ "[" ++ ", ".intercalate (textList args) ++ "]"
    | .bracedCall => textOption func ++ "\x7b" ++ ", ".intercalate (textList args) ++ "\x7d"
    | .template => textOption func ++ "<" ++ ", ".intercalate (textList args) ++ ">"
    | kind => kind.className ++ "(" ++ ", ".intercalate (textList args) ++ ")"

def textOption : Option Node → String
  | none => ""
  | some n => n.text

def textList : List Node → List String
  | [] => []
  | n :: ns => n.text :: textList ns
end

end Node

/-- How a constructor expression is written. -/
structure Style where
  /-- Every constructor call ends with the offset of its node. -/
  offsets : Bool
  /-- Lists of arguments carry the type of their elements. -/
  typedLists : Bool
  deriving DecidableEq, Repr

namespace Style

/-- The form that the parse cache keeps. -/
def cache : Style := ⟨true, false⟩

/-- The form that quotation reads back as a program. -/
def program : Style := ⟨false, true⟩

/-- The last argument of a constructor call. -/
def offset (loc : Nat) : String :=
  if s.offsets then "SourceLoc(None, " ++ toString loc ++ ")" else ""

def listEnd : String := if s.typedLists then "]: Node, " else "], "

def name (text : String) (loc : Nat) : String :=
  "Identifier(\"" ++ text ++ "\", " ++ s.offset loc ++ ")"

def affix : Option Affix → String
  | none => "None"
  | some a => s.name a.name a.loc

end Style

namespace Node

mutual
def constructorText (s : Style) : Node → String
  | ⟨info, kind, func, args, _⟩ =>
    let close := s.offset info.loc ++ ")"
    match kind with
    | .name t => s.name t info.loc
    | .int digits tail | .float digits tail =>
      kind.className ++ "(\"" ++ digits ++ "\", " ++ s.affix tail ++ ", " ++ close
    | .str t lead tail =>
      kind.className ++ "(" ++ escape t ++ ", " ++ s.affix lead ++ ", " ++ s.affix tail ++ ", " ++ close
    | .unary op | .trailing op =>
      kind.className ++ "(\"" ++ op ++ "\", [" ++ String.join (constructorTexts s args) ++ s.listEnd ++
        close
    | .binary _ op =>
      kind.className ++ "(\"" ++ op ++ "\", [" ++
        String.join ((constructorTexts s args).map (· ++ ", ")) ++ s.listEnd ++ close
    | _ =>
      kind.className ++ "(" ++ constructorOption s func ++ "[" ++
        String.join ((constructorTexts s args).map (· ++ ", ")) ++ s.listEnd ++ close

def constructorOption (s : Style) : Option Node → String
  | none => ""
  | some n => n.constructorText s ++ ", "

def constructorTexts (s : Style) : List Node → List String
  | [] => []
  | n :: ns => n.constructorText s :: constructorTexts s ns
end

end Node

end Cppward
