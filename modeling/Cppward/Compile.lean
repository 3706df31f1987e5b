import Cppward.Analysis.Analyse
import Cppward.Emit.Module
import Cppward.Macro.Expansion
import Cppward.Source.Read

namespace Cppward

/-!
# Compilation

The stages from a text to generated code, for a text that stands alone: it includes no modules and
defines no macros.
-/

open Analysis

def analyseText (source : String) : Report Program :=
  match do Macro.expandNone (← Source.readProgram source) with
  | .error e => ⟨[], .error e⟩
  | .ok module => analyse module

def compileText (source : String) : Report Emit.Output :=
  let report := analyseText source
  ⟨report.warnings, report.result.bind fun p => Emit.emitModule p⟩

end Cppward
