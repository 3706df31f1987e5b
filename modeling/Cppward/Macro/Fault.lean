namespace Cppward.Macro

/-!
# Faults of macro definitions
-/

/-- What is wrong with a macro definition. -/
inductive Fault where
  | tooFewArguments
  | noBody
  | parameterForm
  | typedParameterForm
  | duplicateParameter
  | listArity
  | listElement
  | listName
  /-- A body that cannot be run, by the name of the file it was built into. -/
  | missingBody (file : String)
  deriving DecidableEq, Repr

/-- The wording of a fault. -/
def Fault.message : Fault → String
  | .tooFewArguments => "bad defmacro args"
  | .noBody => "last defmacro arg must be a Block"
  | .parameterForm => "bad defmacro param type"
  | .typedParameterForm => "bad typed defmacro param"
  | .duplicateParameter => "duplicate defmacro params"
  | .listArity => "bad ListLiteral args in macro param"
  | .listElement => "bad ListLiteral arg type in macro param"
  | .listName => "arg of type ListLiteral must be an identifier"
  | .missingBody file => "Failed to open macro dll: " ++ file

end Cppward.Macro
