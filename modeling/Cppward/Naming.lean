import Cppward.Failure

namespace Cppward

/-!
# Fresh names

Names that no program uses are made by counting.
-/

/-- The name number `n`, with a hint at what it is for. -/
def privateName (hint : String) (n : Nat) : String := "ceto__private__" ++ hint ++ toString n

/-- Computations that make fresh names and may fail; the state is the number of the last name. -/
abbrev Naming := StateT Nat (Except Failure)

def Naming.fresh (hint : String := "") : Naming String :=
  modifyGet fun n => (privateName hint (n + 1), n + 1)

end Cppward
