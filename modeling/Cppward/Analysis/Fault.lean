namespace Cppward.Analysis

/-!
# Faults of a program's form
-/

/-- What analysis finds wrong with a program. -/
inductive Fault where
  | emptyDef
  | noLambdaArguments
  | noIfArguments
  | assignmentOneLiner
  | firstIfArguments
  | strayBlock (position : Nat)
  | strayColon (argument : String) (position : Nat)
  | strayArgument (argument : String) (position : Nat)
  | ifArguments
  | elsePlacement
  | afterElse
  | emptyRequires
  | redundantParens (warning : String)
  | iterableInBody
  | unsafeModule
  | unsafeArity
  | quoteArity
  | unquoteArity
  | typedParameter
  | parenthesizedParameter
  | parameterName
  deriving DecidableEq, Repr

def Fault.message : Fault → String
  | .emptyDef => "empty def"
  | .noLambdaArguments => "not enough lambda args"
  | .noIfArguments => "not enough if args"
  | .assignmentOneLiner => "no assignment statements in if one liners"
  | .firstIfArguments => "bad first if-args"
  | .strayBlock i =>
    s!"Unexpected if arg. Found block at position {i} but it's not preceded by 'else' or 'elif'"
  | .strayColon a i => s!"Unexpected if arg {a} at position {i}"
  | .strayArgument a i => s!"bad if-arg {a} at position {i}"
  | .ifArguments => "bad if args"
  | .elsePlacement => "bad else placement"
  | .afterElse => "bad arg after else"
  | .emptyRequires => "empty requires expression"
  | .redundantParens warning => warning
  | .iterableInBody => "you may not refer to the iterable in the body of a for loop!"
  | .unsafeModule =>
    "TODO unsafe blocks at Module scope - use an unsafe() call at the top of file for now"
  | .unsafeArity => "unsafe takes 1 arg - an expression or a Block"
  | .quoteArity => "quote takes a single arg"
  | .unquoteArity => "unquote takes a single arg"
  | .typedParameter => "unexpected typed expr in defs parameter list"
  | .parenthesizedParameter =>
    "Overparenthesized assignments in def parameter lists are not treated as named params. To fix, remove the redundant parenthesese from:"
  | .parameterName => "Non identifier left hand side in def arg"

end Cppward.Analysis
