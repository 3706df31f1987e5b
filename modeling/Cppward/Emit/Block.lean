import Cppward.Emit.Branch
import Cppward.Emit.Class
import Cppward.Emit.Loop

namespace Cppward.Emit

/-!
# Statements

* `emitStatement` — one statement,
* `emitBlock` — the statements of a block.
-/

def emitTypedStatement (e : Emitter) (n type : Node) (cx : Context) : Gen String := do
  if type.isNamed "global" then
    if !(← Gen.context cx).inFunctionBody then Gen.refuse .globalOutsideFunction n
    if !n.isIdent then Gen.refuse .globalNotName n
    return ""
  else if type.specifiers.any (·.isOneOf ["typedef", "using"]) then
    let code ← emitType e n (some type) cx
    Gen.withoutType n fun n => do return code ++ " " ++ (← e.node n cx) ++ ";\n"
  else
    let (const, code) ← declarationType e n cx
    return " " ++ const ++ code ++ " " ++ n.name?.getD "" ++ ";\n"

def emitStatement (e : Emitter) (n : Node) (cx : Context) : Gen String := do
  let n ← Gen.current n
  if n.isNamed "pass" then return "; // pass\n"
  else if n.isCallOf "for" then emitFor e n cx
  else if n.isCallOfAny ["class", "struct"] then emitClass e n cx
  else if n.isCallOf "if" then emitIf e n cx
  else if n.isCallOf "while" then emitWhile e n cx
  else if n.isCallOf "def" then emitFunction e n cx
  else
    match n.type with
    | some type => emitTypedStatement e n type cx
    | none =>
      let code ← e.node n cx
      return if isComment n then code else code ++ ";\n"

def emitBlock (e : Emitter) (n : Node) (cx : Context) : Gen String := do
  let n ← Gen.current n
  Gen.ensure n.isBlock
  let indent ← Gen.indent cx
  let codes ← n.args.mapM fun a => do return indent ++ (← emitStatement e a cx)
  return String.join codes

end Cppward.Emit
