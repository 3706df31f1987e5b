import Cppward.Node.Basic

namespace Cppward.Analysis

/-!
# Scopes

A scope holds what is defined in some part of a program: variables, functions, classes and the
methods of interfaces.  Scopes form a tree, and a name is looked up from the inside out.

Nodes, scopes and classes are named by their numbers in the tables of the program.
-/

inductive VariableSort where
  | localVariable
  | globalVariable
  | field
  | parameter
  deriving DecidableEq, Repr

def VariableSort.className : VariableSort → String
  | .localVariable => "LocalVariableDefinition"
  | .globalVariable => "GlobalVariableDefinition"
  | .field => "FieldDefinition"
  | .parameter => "ParameterDefinition"

/-- A variable: the name that is defined, and the node that defines it. -/
structure Definition where
  sort : VariableSort
  name : String
  defined : Nat
  defining : Nat
  deriving DecidableEq, Repr

structure FunctionEntry where
  name : String
  nameNode : Nat
  definition : Nat
  deriving DecidableEq, Repr

/-- A class, or a forward declaration of one. -/
structure ClassEntry where
  name : String
  definition : Nat
  isUnique : Bool := false
  isStruct : Bool := false
  isForward : Bool := false
  isPureVirtual : Bool := false
  isConcrete : Bool := false
  deriving DecidableEq, Repr, Inhabited

/-- The answer to a look-up of a class.  Interfaces have no entry of their own. -/
inductive ClassRef where
  | interface
  | entry (index : Nat)
  deriving DecidableEq, Repr

structure Scope where
  parent : Option Nat := none
  indent : Nat := 0
  definitions : List Definition := []
  functions : List FunctionEntry := []
  classes : List Nat := []
  interfaces : List (String × List Nat) := []
  inFunctionBody : Bool := false
  inParameterList : Bool := false
  inClassBody : Bool := false
  inDecltype : Bool := false
  isUnsafe : Bool := false
  deriving Repr, Inhabited

namespace Scope

/-- A scope inside `s`, which has the number `id`. -/
def inner (s : Scope) (id : Nat) : Scope :=
  { parent := some id
    indent := s.indent + 1
    inFunctionBody := s.inFunctionBody
    inDecltype := s.inDecltype
    isUnsafe := s.isUnsafe }

/-- The columns by which code in the scope is indented. -/
def columns (s : Scope) : Nat := 4 * s.indent

def addInterfaceMethod (s : Scope) (interface : String) (method : Nat) : Scope :=
  { s with interfaces :=
      match s.interfaces.lookup interface with
      | some methods =>
        s.interfaces.map fun (name, old) =>
          if name == interface then (name, methods ++ [method]) else (name, old)
      | none => s.interfaces ++ [(interface, [method])] }

end Scope

end Cppward.Analysis
