import Cppward.Proofs.Emit.Steady.Statement

namespace Cppward.Emit

open Analysis

/-!
# The generator changes the tables step by step

* `steady_emitter` — the parts of the generator call each other, and all of them are steady,
* `steady_emitStatements` — so is the generation of a module.
-/

variable {α : Type} {D : Nat → Prop} {e : Emitter} [e.Steady D] {n func value type target holder : Node}
variable {cx inner : Context} {name : String}

/-! ### Calls -/

instance steady_qualifiedName {ns : List Node} : Steady D (qualifiedName e name ns cx) := by
  unfold qualifiedName
  infer_instance

instance steady_memberAccess : Steady D (memberAccess e target value cx) := by
  unfold memberAccess
  infer_instance

instance steady_emitAttribute : Steady D (emitAttribute e n cx) := by
  unfold emitAttribute
  repeat' first
    | with_reducible refine .seq ?_ fun _ => ?_
    | with_reducible refine .branch ?_ ?_
    | infer_instance | dsimp only | split

instance steady_emitRequires : Steady D (emitRequires e n cx) := by
  unfold emitRequires
  refine .seq inferInstance fun _ => .seq inferInstance fun _ =>
    .seq (.mapEach fun a => .seq inferInstance fun _ => ?_) inferInstance
  split <;> infer_instance

instance steady_emitInstanceCheck {b : Bool} : Steady D (emitInstanceCheck e n b cx) := by
  unfold emitInstanceCheck
  repeat' first
    | with_reducible refine .seq ?_ fun _ => ?_
    | with_reducible refine .branch ?_ ?_
    | infer_instance | dsimp only | split

instance steady_emitNamespace : Steady D (emitNamespace e n cx) := by
  unfold emitNamespace
  split
  · infer_instance
  · split <;> infer_instance

instance steady_emitConstruct : Steady D (emitConstruct e n name cx) := by
  unfold emitConstruct
  repeat' first
    | with_reducible refine .seq ?_ fun _ => ?_
    | with_reducible refine .branch ?_ ?_
    | infer_instance | dsimp only | split

instance steady_emitInstance {c : ClassEntry} {code : String} :
    Steady D (emitInstance n c name code) := by
  unfold emitInstance
  infer_instance

instance steady_emitArguments : Steady D (emitArguments e n name cx) := by
  unfold emitArguments
  split <;> infer_instance

instance steady_emitPlainCall : Steady D (emitPlainCall e n name cx) := by
  unfold emitPlainCall
  refine .seq inferInstance fun _ => .seq inferInstance fun _ => ?_
  split <;> infer_instance

instance steady_methodTarget : Steady D (methodTarget n) := by
  unfold methodTarget
  infer_instance

instance steady_emitAppend : Steady D (emitAppend e n target value cx) := by
  unfold emitAppend
  infer_instance

instance steady_appendsToVariable : Steady D (appendsToVariable n value) := by
  unfold appendsToVariable
  infer_instance

instance steady_emitMethod : Steady D (emitMethod e n func target cx) := by
  unfold emitMethod
  repeat' first
    | with_reducible refine .seq ?_ fun _ => ?_
    | with_reducible refine .branch ?_ ?_
    | infer_instance | dsimp only | split

instance steady_emitMethodCall : Steady D (emitMethodCall e n cx) := by
  unfold emitMethodCall
  repeat' first
    | with_reducible refine .seq ?_ fun _ => ?_
    | with_reducible refine .branch ?_ ?_
    | infer_instance | dsimp only | split

instance steady_emitCall : Steady D (emitCall e n cx) := by
  unfold emitCall
  repeat' first
    | with_reducible refine .seq ?_ fun _ => ?_
    | with_reducible refine .branch ?_ ?_
    | infer_instance | dsimp only | split

/-! ### Nodes -/

instance steady_isOperand {i : Nat} {classes : List Binary} : Steady D (isOperand n i classes) := by
  unfold isOperand
  infer_instance

instance steady_isInOperator {classes : List Binary} : Steady D (isInOperator n classes) := by
  unfold isInOperator
  infer_instance

instance steady_isField : Steady D (isField n) := by
  unfold isField
  infer_instance

instance steady_emitPlainName : Steady D (emitPlainName n name cx) := by
  unfold emitPlainName
  repeat' first
    | with_reducible refine .seq ?_ fun _ => ?_
    | with_reducible refine .branch ?_ ?_
    | infer_instance | dsimp only | split

instance steady_emitName : Steady D (emitName n name cx) := by
  unfold emitName
  split <;> infer_instance

instance steady_emitReturn {b : Bool} : Steady D (emitReturn e n value b cx) := by
  unfold emitReturn
  repeat' first
    | with_reducible refine .seq ?_ fun _ => ?_
    | with_reducible refine .branch ?_ ?_
    | infer_instance | dsimp only | split

instance steady_isNested {exempt : Node → Bool} : Steady D (isNested n exempt) := by
  unfold isNested
  infer_instance

instance steady_nested {exempt : Node → Bool} {code : String} : Steady D (nested n exempt code) := by
  unfold nested
  infer_instance

instance steady_emitOperator {cls : Binary} : Steady D (emitOperator e n cls name cx) := by
  unfold emitOperator
  repeat' first
    | with_reducible refine .seq ?_ fun _ => ?_
    | with_reducible refine .branch ?_ ?_
    | infer_instance | dsimp only | split

instance steady_emitUnary : Steady D (emitUnary e name n cx) := by
  unfold emitUnary
  infer_instance

instance steady_emitTemplate : Steady D (emitTemplate e n cx) := by
  unfold emitTemplate
  repeat' first
    | with_reducible refine .seq ?_ fun _ => ?_
    | with_reducible refine .branch ?_ ?_
    | infer_instance | dsimp only | split

instance steady_emitIndex : Steady D (emitIndex e n cx) := by
  unfold emitIndex
  infer_instance

instance steady_emitBracedCall : Steady D (emitBracedCall e n cx) := by
  unfold emitBracedCall
  infer_instance

instance steady_emitTyped : Steady D (emitTyped e n cx) := by
  unfold emitTyped
  repeat' first
    | with_reducible refine .seq ?_ fun _ => ?_
    | with_reducible refine .branch ?_ ?_
    | infer_instance | dsimp only | split

instance steady_emitUntyped : Steady D (emitUntyped e n cx) := by
  unfold emitUntyped
  split <;> infer_instance

instance steady_emitNode : Steady D (emitNode e n cx) := by
  unfold emitNode
  refine .seq inferInstance fun _ => ?_
  split <;> infer_instance

/-! ### The whole generator -/

/-- By induction on how deep its parts call each other. -/
instance steady_emitter (k : Nat) : (emitter k).Steady D := by
  induction k with
  | zero => exact ⟨fun _ _ => .throw _, fun _ _ _ => .throw _, fun _ _ => .throw _, fun _ _ => .throw _,
      fun _ _ => .throw _, fun _ _ => .throw _⟩
  | succ k ih => exact ⟨fun _ _ => steady_emitNode, fun _ _ _ => steady_emitType,
      fun _ _ => steady_emitBlock, fun _ _ => steady_typeOf, fun _ _ => steady_inferredType,
      fun _ _ => steady_elementType⟩

instance steady_emitTopStatement : Steady D (emitTopStatement e n cx) := by
  unfold emitTopStatement
  infer_instance

instance steady_emitStatements {ns : List Node} : Steady D (emitStatements e ns cx) := by
  unfold emitStatements
  infer_instance

end Cppward.Emit
