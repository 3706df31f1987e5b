namespace Cppward.Source

/-!
# Faults of a source text

What can be wrong with a text that the layout accepts, apart from not being a sentence of the
grammar.
-/

/-- Why a source text is refused. -/
inductive Fault where
  /-- The operator `&&` was used. -/
  | doubleAmpersand
  /-- A file places its statements in two namespaces. -/
  | secondNamespace
  /-- An include of several modules, or of none. -/
  | includeArity
  /-- An include of something that is not a name. -/
  | includeName
  /-- An include of a module that is not there. -/
  | includeMissing
  deriving DecidableEq, Repr

/-- The wording of a fault. -/
def Fault.message : Fault → String
  | .doubleAmpersand => "don't use '&&'. use 'and' instead."
  | .secondNamespace => "only 1 namespace call per file"
  | .includeArity => "include call must have a single arg"
  | .includeName => "module names must be valid identifiers"
  | .includeMissing => "can't find .cth header for include"

end Cppward.Source
