import Cppward.Emit.Generator

namespace Cppward.Emit

open Analysis

/-!
# Variables with a unique owner

Instances of a class that is declared `unique` have one owner, so a variable that holds one is moved
from where it is used last.
-/

/-- The node that defines a variable gives it an instance of a unique class, by its type or by the
    class of the value. -/
def definesUnique (defining : Node) (cx : Context) : Gen Bool := do
  let isUnique (n : Option Node) : Gen Bool := do
    return ((← Gen.lookupClass cx n).map (·.entry.isUnique)).getD false
  if ← isUnique (defining.type.bind Node.stripMutOrConst) then return true
  if !defining.isAssign then return false
  match defining.rhs?.bind Node.stripMutOrConst with
  | some value => if value.isCall then isUnique value.func else return false
  | none => return false

/-- The variable holds an instance of a unique class. -/
def isUniqueVariable (n : Node) (cx : Context) : Gen Bool := do
  if ((← Gen.program).scopeOf? n).isNone then return false
  let defs ← Gen.findDefs n n
  let owned := defs.filter fun d => d.sort == .localVariable || d.sort == .parameter
  if ← owned.anyM fun d => do definesUnique (← Gen.nodeOf d.defining) cx then return true
  match ← Gen.parent n with
  | some holder => if holder.isAssign then definesUnique holder cx else return false
  | none => return false

end Cppward.Emit
