import Cppward.Emit.Assignment

namespace Cppward.Emit

/-!
# Loops over a range

A `for` loop runs in a lambda that takes the range, so that the range lives as long as the loop.  The
loop counts, and stops the program if the size of the range changes.  A loop that returns a value
leaves the lambda by an exception at its end.
-/

structure LoopParts where
  range : String
  index : String
  size : String
  type : String
  target : String
  body : String
  iterable : String
  /-- A statement of the loop returns. -/
  returns : Bool

/-- What a loop does before its body: it counts, and checks the size of the range. -/
def LoopParts.opening (l : LoopParts) : String :=
  "    size_t " ++ l.size ++ " = std::size(" ++ l.range ++ ");\n" ++
  "    for (size_t " ++ l.index ++ " = 0; ; " ++ l.index ++ "++) \x7b\n" ++
  "        if (std::size(" ++ l.range ++ ") != " ++ l.size ++ ") \x7b\n" ++
  "            std::cerr << \"Container size changed during iteration: \" << __FILE__ << " ++
  "\" line: \"<< __LINE__ << \"\\n\";\n" ++
  "            std::terminate();\n" ++
  "        \x7d\n" ++
  "        if (" ++ l.index ++ " >= " ++ l.size ++ ") \x7b\n" ++
  "            break;\n" ++
  "        \x7d\n" ++
  "        " ++ l.type ++ " " ++ l.target ++ " = " ++ l.range ++ "[" ++ l.index ++ "];\n" ++
  "        "

def LoopParts.code (l : LoopParts) : String :=
  let result := if l.returns then " -> decltype(auto) " else ""
  let finish := if l.returns then "throw ceto::EndLoopMarkerError();" else ""
  let loop :=
    "[&](auto&& " ++ l.range ++ ")" ++ result ++ "\x7b\n" ++
    l.opening ++ l.body ++ "\n" ++
    "    \x7d\n" ++
    "    " ++ finish ++ "\n" ++
    "\x7d(" ++ l.iterable ++ ");\n" ++
    "    "
  if l.returns then
    "try \x7b\n" ++
    "    return " ++ loop ++ ";\n" ++
    "\x7d catch (const ceto::EndLoopMarkerError&) \x7b\n" ++
    "    ; // pass (loop end)\n" ++
    "\x7d"
  else loop

def loopVariable (e : Emitter) (target : Node) (cx : Context) : Gen (String × String) := do
  if target.isTuple then
    return (" ", ← structuredBinding e target true cx)
  else if target.type.isSome then Gen.need (← typedParameter e target cx)
  else return ("const auto&", ← e.node target cx)

def emitFor (e : Emitter) (n : Node) (cx : Context) : Gen String := do
  let n ← Gen.current n
  match n.args with
  | [head, block] =>
    if !block.isBlock then Gen.refuse .forBlock n
    match head.isBinary && head.op? == some "in", head.args with
    | true, [target, iterable] =>
      if !target.isIdent && !target.isTuple then Gen.refuse .forTarget target
      let (type, target) ← loopVariable e target cx
      let iterable ← e.node iterable cx
      let range ← Gen.fresh "rng"
      let index ← Gen.fresh "idx"
      let size ← Gen.fresh "size"
      let indent ← Gen.indent cx
      let inner ← Gen.enter cx
      let returns := (← Gen.current block).args.any fun a =>
        a.isClause && a.lhsName? == some "return"
      let body ← e.block block inner
      let parts : LoopParts := { range, index, size, type, target, body, iterable, returns }
      return String.ofList (Text.indent indent.toList parts.code.toList)
    | _, _ => Gen.refuse .forHead n
  | _ => Gen.refuse .forArity n

end Cppward.Emit
