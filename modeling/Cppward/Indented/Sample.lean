import Cppward.Indented.Statement

namespace Cppward.Indented

/-!
# A sample program
-/

/-- A program with a chain of branches and a loop. -/
def sample : List Statement :=
  [.define "main" "argc: types('const int'), argv: types(char, ptr, ptr)" (some "int") [
    .simple "x: int = 5",
    .branch "x == 0" [.simple "y = 1"] [
      .branch "x == 1" [.simple "y = 2"] [
        .branch "x == 1" [.simple "y = 2", .simple "y = 4"] [
          .branch "x == 1" [
            .simple "y = 2",
            .loop "i" "[0, 1, 2]" [.simple "std.cout << i"] []]
          [.simple "y = 3", .simple "y = 5"]]]],
    .simple "std.cout << y"]]

def sampleText : String := render sample ++ "\n"

end Cppward.Indented
