import Cppward.Text.Blank

namespace Cppward.Indented

/-!
# Statements in blocks marked by indentation

A program may also be written with blocks that are marked by indentation alone.  Its compound
statements are definitions, branches and loops; everything else is a simple statement, which is
kept as it is written.
-/

/-- A statement.  A branch that follows another one with a test of its own is the first statement of
    the other branch. -/
inductive Statement where
  | simple (text : String)
  | define (name params : String) (returns : Option String) (body : List Statement)
  | branch (test : String) (body otherwise : List Statement)
  | loop (target range : String) (body otherwise : List Statement)
  deriving Repr, Inhabited

/-- The spaces in front of a statement at a depth. -/
def margin (depth : Nat) : String := String.ofList (List.replicate (4 * depth) ' ')

def definitionHead (name params : String) : String :=
  "def (" ++ name ++ (if Text.allBlank params.toList then "" else ", " ++ params)

mutual
/-- A statement at a depth, without the margin in front of its first line.  Behind a test, only a
    branch is kept of an alternative that starts with one; the alternative of a loop is left out. -/
def Statement.render (depth : Nat) : Statement → String
  | .simple text => text
  | .define name params returns body =>
    definitionHead name params ++ ":\n" ++ renderBlock (depth + 1) body ++ margin depth ++ ")" ++
      (returns.map (" : " ++ ·)).getD ""
  | .branch test body otherwise =>
    "if (" ++ test ++ ":\n" ++ renderBlock (depth + 1) body ++ renderAlternative depth otherwise ++
      margin depth ++ ")"
  | .loop target range body _ =>
    "for (" ++ target ++ " in " ++ range ++ ":\n" ++ renderBlock (depth + 1) body ++ margin depth ++
      ")"

/-- The lines of a block whose statements stand at a depth. -/
def renderBlock (depth : Nat) : List Statement → String
  | [] => ""
  | s :: ss => margin depth ++ s.render depth ++ "\n" ++ renderBlock depth ss

/-- The lines for what is done when no test before holds. -/
def renderAlternative (depth : Nat) : List Statement → String
  | [] => ""
  | .branch test body otherwise :: _ =>
    margin depth ++ "elif " ++ test ++ ":\n" ++ renderBlock (depth + 1) body ++
      renderAlternative depth otherwise
  | s :: ss =>
    margin depth ++ "else:\n" ++ margin (depth + 1) ++ s.render (depth + 1) ++ "\n" ++
      renderBlock (depth + 1) ss
end

def render (program : List Statement) : String := renderBlock 0 program

end Cppward.Indented
