import Cppward.Analysis.Fault
import Cppward.Emit.Fault
import Cppward.Layout.Frame
import Cppward.Macro.Fault
import Cppward.Node.Text
import Cppward.Source.Fault

namespace Cppward

/-!
# Failures

Everything that can stop the compilation of a program, by the stage that finds it.
-/

/-- What a failure points at: its text and, for a node, the offset it was read from. -/
structure Subject where
  text : String
  loc : Option Nat
  deriving DecidableEq, Repr

def Subject.ofNode (n : Node) : Subject := ⟨n.text, some n.info.loc⟩

/-- Why a program is not compiled. -/
inductive Failure where
  /-- The text cannot be laid out. -/
  | layout (e : Layout.Error)
  /-- The text is no sentence of the grammar. -/
  | unreadable
  /-- The text is refused for another reason. -/
  | source (fault : Source.Fault)
  /-- A macro cannot be defined or expanded. -/
  | expansion (fault : Macro.Fault)
  /-- Analysis refuses the program, and may point at a node. -/
  | analysis (fault : Analysis.Fault) (subject : Option Subject)
  /-- No code can be generated; it may be said for which node. -/
  | emission (fault : Emit.Fault) (subject : Option Subject)
  /-- The program has a form that no stage provides for. -/
  | unforeseen
  deriving Repr

/-- The wording of a failure. -/
def Failure.message : Failure → String
  | .layout e => e.message
  | .unreadable => "Syntax Error."
  | .source fault => fault.message
  | .expansion fault => fault.message
  | .analysis fault _ => fault.message
  | .emission fault _ => fault.message
  | .unforeseen => "The program has a form that is not provided for."

end Cppward
