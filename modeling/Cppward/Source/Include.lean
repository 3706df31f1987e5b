import Cppward.Action

namespace Cppward.Source

/-!
# Included modules

A statement `include(name)` puts the statements of another module in front of itself, followed by
a boundary call, the first time the name is met.

* `expandIncludes` — the statements of a module with its includes in place, for any way to find a
  module by its name,
* `setHeader` — marks the nodes of an included module with the files they belong to.
-/

mutual
/-- Marks a node, what it applies and its arguments; nodes of a module that was included earlier
    keep their own mark. -/
def setHeader (h : Header) : Node → Node
  | ⟨info, kind, func, args, type⟩ =>
    match info.header with
    | some _ => ⟨info, kind, func, args, type⟩
    | none =>
      ⟨{ info with header := some h }, kind, setHeaderOption h func, setHeaders h args, type⟩

def setHeaderOption (h : Header) : Option Node → Option Node
  | none => none
  | some n => some (setHeader h n)

def setHeaders (h : Header) : List Node → List Node
  | [] => []
  | n :: ns => setHeader h n :: setHeaders h ns
end

/-- The name that an include statement asks for. -/
def includedName (call : Node) : Except Fault String :=
  match call.args with
  | [arg] =>
    match arg.name? with
    | some name => .ok name
    | none => .error .includeName
  | _ => .error .includeArity

/-- The call that separates the statements of one module from the next. -/
def moduleBoundary : Node := Node.ofCall (Node.ident "ceto_private_module_boundary") []

/-- Puts the statements of included modules in place.  `load` finds a module by its name, and
    answers `none` when the module has been included before. -/
def expandIncludes {σ : Type} (load : String → Action σ (Option (Header × List Node))) :
    List Node → Action σ (List Node)
  | [] => return []
  | n :: ns => do
    if n.isCallOf "include" then
      match includedName n with
      | .error fault => throw (.source fault)
      | .ok name =>
        match ← load name with
        | none => return n :: (← expandIncludes load ns)
        | some (header, statements) =>
          let rest ← expandIncludes load ns
          return setHeaders header statements ++ moduleBoundary :: n :: rest
    else
      return n :: (← expandIncludes load ns)

end Cppward.Source
