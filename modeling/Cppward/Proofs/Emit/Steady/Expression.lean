import Cppward.Proofs.Emit.Changes

namespace Cppward.Emit

open Analysis

/-!
# The code of types, values and assignments changes the tables step by step

Functions without a case distinction are steady because their parts are.  The others are taken apart: a
sequence is steady if its parts are, a condition if both sides are, and so on for each case.
-/

variable {α : Type} {D : Nat → Prop} {e : Emitter} [e.Steady D] {n func value type target holder : Node}
variable {cx inner : Context} {name : String}

/-! ### The object itself, and unique owners -/

instance steady_sharesSelf {definition fuel : Nat} : Steady D (sharesSelf definition fuel n) := by
  induction fuel generalizing n with
  | zero => exact .throw _
  | succ fuel ih =>
    unfold sharesSelf
    infer_instance

instance steady_throughThis {self access : Node} : Steady D (throughThis self access) := by
  unfold throughThis
  refine .seq inferInstance fun _ => .seq inferInstance fun _ => .seq inferInstance fun _ =>
    .seq inferInstance fun _ => .seq inferInstance fun _ => Gen.steady_modifyProgram fun p => ?_
  simp [tables_update, Program.setScope, Program.setParent]

instance steady_reachThis : Steady D (reachThis n) := by
  unfold reachThis
  refine .seq inferInstance fun definition => .foldEach fun rest self =>
    .seq inferInstance fun _ => .seq inferInstance fun _ => .seq inferInstance fun _ => ?_
  split <;> infer_instance

instance steady_definesUnique : Steady D (definesUnique n cx) := by
  unfold definesUnique
  split
  · infer_instance
  · split <;> infer_instance

instance steady_isUniqueVariable : Steady D (isUniqueVariable n cx) := by
  unfold isUniqueVariable
  repeat' first
    | with_reducible refine .seq ?_ fun _ => ?_
    | with_reducible refine .branch ?_ ?_
    | infer_instance | dsimp only | split

/-! ### Types -/

namespace Pointer

variable {types : List Node} {names : List (Option String)}

instance steady_places {group : List String} : Steady D (places group names) := by
  unfold places
  split <;> infer_instance

instance steady_explicit {isUnique : Bool} {groups : List (List String × String × String × Bool)} :
    Steady D (explicit types names isUnique groups) := by
  induction groups with
  | nil => exact .pure _
  | cons group groups ih =>
    unfold explicit
    repeat' first
      | with_reducible refine .seq ?_ fun _ => ?_
      | with_reducible refine .branch ?_ ?_
      | infer_instance | dsimp only | split

instance steady_implied {pointer : String} {groups : List (List String × String)} :
    Steady D (implied names pointer groups) := by
  induction groups with
  | nil => exact .pure _
  | cons group groups ih =>
    unfold implied
    repeat' first
      | with_reducible refine .seq ?_ fun _ => ?_
      | with_reducible refine .branch ?_ ?_
      | infer_instance | dsimp only | split

instance steady_forSpecifiers : Steady D (forSpecifiers types cx) := by
  unfold forSpecifiers
  repeat' first
    | with_reducible refine .seq ?_ fun _ => ?_
    | with_reducible refine .branch ?_ ?_
    | infer_instance | dsimp only | split

end Pointer

instance steady_pointerText {o : Option Node} : Steady D (pointerText cx o) := by
  unfold pointerText
  refine .seq inferInstance fun _ => ?_
  split <;> infer_instance

instance steady_Emitter_nodes {ns : List Node} : Steady D (Emitter.nodes e ns cx) := by
  unfold Emitter.nodes
  infer_instance

instance steady_emitSpecifier : Steady D (emitSpecifier e n cx target) := by
  unfold emitSpecifier
  repeat' first
    | with_reducible refine .seq ?_ fun _ => ?_
    | with_reducible refine .branch ?_ ?_
    | infer_instance | dsimp only | split

instance steady_emitPieces {pieces : List Piece} {names : List (Option String)} :
    Steady D (emitPieces e n cx pieces names) := by
  fun_induction emitPieces e n cx pieces names <;> infer_instance

instance steady_emitType {o : Option Node} : Steady D (emitType e n o cx) := by
  unfold emitType
  repeat' first
    | with_reducible refine .seq ?_ fun _ => ?_
    | with_reducible refine .branch ?_ ?_
    | infer_instance | dsimp only | split

/-! ### Literals and parameters -/

instance steady_emitString {lead tail : Option Affix} : Steady D (emitString n name lead tail) := by
  unfold emitString
  infer_instance

instance steady_declaredElement : Steady D (declaredElement n) := by
  unfold declaredElement
  repeat' first
    | with_reducible refine .seq ?_ fun _ => ?_
    | with_reducible refine .branch ?_ ?_
    | infer_instance | dsimp only | split

instance steady_emitList : Steady D (emitList e n cx) := by
  unfold emitList
  repeat' first
    | with_reducible refine .seq ?_ fun _ => ?_
    | with_reducible refine .branch ?_ ?_
    | infer_instance | dsimp only | split

instance steady_emitBraces : Steady D (emitBraces e n cx) := by
  unfold emitBraces
  infer_instance

instance steady_emitTuple : Steady D (emitTuple e n cx) := by
  unfold emitTuple
  infer_instance

instance steady_isManaged : Steady D (isManaged cx n) := by
  unfold isManaged
  infer_instance

instance steady_withoutMut : Steady D (withoutMut n cx) := by
  unfold withoutMut
  refine .branch inferInstance ?_
  split <;> infer_instance

instance steady_isPassedByReference : Steady D (isPassedByReference n cx) := by
  unfold isPassedByReference
  refine .seq inferInstance fun _ => ?_
  split <;> infer_instance

instance steady_isUniqueType {o : Option Node} : Steady D (isUniqueType o cx) := by
  unfold isUniqueType
  infer_instance

instance steady_plainParameter : Steady D (plainParameter e n type cx) := by
  unfold plainParameter
  infer_instance

instance steady_defaultedParameter : Steady D (defaultedParameter e target type value cx) := by
  unfold defaultedParameter
  infer_instance

instance steady_inferredParameter : Steady D (inferredParameter e n target value cx) := by
  unfold inferredParameter
  repeat' first
    | with_reducible refine .seq ?_ fun _ => ?_
    | with_reducible refine .branch ?_ ?_
    | infer_instance | dsimp only | split

instance steady_refuseParameter {fault : Analysis.Fault} :
    Steady D (refuseParameter fault n : Gen α) := by
  unfold refuseParameter
  infer_instance

instance steady_typedParameter : Steady D (typedParameter e n cx) := by
  unfold typedParameter
  repeat' first
    | with_reducible refine .seq ?_ fun _ => ?_
    | with_reducible refine .branch ?_ ?_
    | infer_instance | dsimp only | split

instance steady_parameterText : Steady D (parameterText e n cx) := by
  unfold parameterText
  infer_instance

/-! ### Lambdas -/

instance steady_lambdaParameter : Steady D (lambdaParameter e n cx) := by
  unfold lambdaParameter
  repeat' first
    | with_reducible refine .seq ?_ fun _ => ?_
    | with_reducible refine .branch ?_ ?_
    | infer_instance | dsimp only | split

instance steady_callText {ns : List Node} : Steady D (callText e cx ns) := by
  unfold callText
  infer_instance

instance steady_calledType {ns : List Node} : Steady D (calledType e n ns value cx) := by
  unfold calledType
  dsimp only
  split <;> infer_instance

instance steady_lambdaType : Steady D (lambdaType e n cx) := by
  unfold lambdaType
  repeat' first
    | with_reducible refine .seq ?_ fun _ => ?_
    | with_reducible refine .branch ?_ ?_
    | infer_instance | dsimp only | split

instance steady_captureItem : Steady D (captureItem e cx n) := by
  unfold captureItem
  repeat' first
    | with_reducible refine .seq ?_ fun _ => ?_
    | with_reducible refine .branch ?_ ?_
    | infer_instance | dsimp only | split

instance steady_isCaptured : Steady D (isCaptured n value) := by
  unfold isCaptured
  repeat' first
    | with_reducible refine .seq ?_ fun _ => ?_
    | with_reducible refine .branch ?_ ?_
    | infer_instance | dsimp only | split

instance steady_impliedCaptures : Steady D (impliedCaptures n) := by
  unfold impliedCaptures
  infer_instance

instance steady_captureText : Steady D (captureText e n cx) := by
  unfold captureText
  refine .seq inferInstance fun _ => ?_
  split <;> infer_instance

instance steady_emitLambda : Steady D (emitLambda e n cx) := by
  unfold emitLambda
  repeat' first
    | with_reducible refine .seq ?_ fun _ => ?_
    | with_reducible refine .branch ?_ ?_
    | infer_instance

/-! ### Types of expressions -/

instance steady_makesConst : Steady D (makesConst n) := by
  unfold makesConst
  repeat' first
    | with_reducible refine .seq ?_ fun _ => ?_
    | with_reducible refine .branch ?_ ?_
    | infer_instance | dsimp only | split

instance steady_elementAround {fuel : Nat} {o : Option Node} :
    Steady D (elementAround e n cx fuel o) := by
  induction fuel generalizing o with
  | zero => exact .throw _
  | succ fuel ih =>
    cases o with
    | none => exact .throw _
    | some at_ =>
      unfold elementAround
      repeat' first
        | with_reducible refine .seq ?_ fun _ => ?_
        | with_reducible refine .branch ?_ ?_
        | infer_instance | dsimp only | split

instance steady_elementFromUses {uses : List Node} : Steady D (elementFromUses e cx uses) := by
  induction uses with
  | nil => exact .pure _
  | cons use uses ih =>
    unfold elementFromUses
    repeat' first
      | with_reducible refine .seq ?_ fun _ => ?_
      | with_reducible refine .branch ?_ ?_
      | infer_instance | dsimp only | split

instance steady_elementType : Steady D (elementType e n cx) := by
  unfold elementType
  repeat' first
    | with_reducible refine .seq ?_ fun _ => ?_
    | with_reducible refine .branch ?_ ?_
    | infer_instance | dsimp only | split

instance steady_elementFromDefs {ds : List Definition} : Steady D (elementFromDefs e cx ds) := by
  induction ds with
  | nil => exact .pure _
  | cons d ds ih =>
    unfold elementFromDefs
    repeat' first
      | with_reducible refine .seq ?_ fun _ => ?_
      | with_reducible refine .branch ?_ ?_
      | infer_instance | dsimp only | split

instance steady_indexedType : Steady D (indexedType e n cx) := by
  unfold indexedType
  refine .seq inferInstance fun _ => .seq inferInstance fun _ => .seq inferInstance fun _ => ?_
  split <;> infer_instance

instance steady_listType : Steady D (listType e n cx) := by
  unfold listType
  infer_instance

instance steady_typeFromDef : Steady D (typeFromDef e target value cx) := by
  unfold typeFromDef
  repeat' first
    | with_reducible refine .seq ?_ fun _ => ?_
    | with_reducible refine .branch ?_ ?_
    | infer_instance | dsimp only | split

instance steady_variableType : Steady D (variableType e n cx) := by
  unfold variableType
  refine .seq inferInstance fun _ => .seq inferInstance fun _ => ?_
  split <;> infer_instance

instance steady_valueOfType : Steady D (valueOfType e cx n) := by
  unfold valueOfType
  infer_instance

instance steady_callType : Steady D (callType e n cx) := by
  unfold callType
  repeat' first
    | with_reducible refine .seq ?_ fun _ => ?_
    | with_reducible refine .branch ?_ ?_
    | infer_instance | dsimp only | split

instance steady_operatorType : Steady D (operatorType e n target value cx) := by
  unfold operatorType
  infer_instance

instance steady_inferredType : Steady D (inferredType e n cx) := by
  unfold inferredType
  repeat' first
    | with_reducible refine .seq ?_ fun _ => ?_
    | with_reducible refine .branch ?_ ?_
    | infer_instance | dsimp only | split

instance steady_typeOf : Steady D (typeOf e n cx) := by
  unfold typeOf
  infer_instance

/-! ### Assignments -/

instance steady_specifiedType : Steady D (specifiedType e n type cx) := by
  unfold specifiedType
  repeat' first
    | with_reducible refine .seq ?_ fun _ => ?_
    | with_reducible refine .branch ?_ ?_
    | infer_instance | dsimp only | split

instance steady_declarationType : Steady D (declarationType e n cx) := by
  unfold declarationType
  repeat' first
    | with_reducible refine .seq ?_ fun _ => ?_
    | with_reducible refine .branch ?_ ?_
    | infer_instance | dsimp only | split

instance steady_structuredBinding {b : Bool} : Steady D (structuredBinding e n b cx) := by
  unfold structuredBinding
  refine .seq inferInstance fun _ => .seq inferInstance fun _ => ?_
  split <;> infer_instance

instance steady_assignTuple : Steady D (assignTuple e n target name cx) := by
  unfold assignTuple
  infer_instance

instance steady_assignedValue : Steady D (assignedValue e n target value cx) := by
  unfold assignedValue
  repeat' first
    | with_reducible refine .seq ?_ fun _ => ?_
    | with_reducible refine .branch ?_ ?_
    | infer_instance | dsimp only | split

instance steady_assignUnique : Steady D (assignUnique e target name cx) := by
  unfold assignUnique
  split <;> infer_instance

instance steady_assignTyped {code : String} :
    Steady D (assignTyped e target value type name code cx) := by
  unfold assignTyped
  infer_instance

instance steady_assignUntyped {code : String} : Steady D (assignUntyped n target name code cx) := by
  unfold assignUntyped
  refine .seq inferInstance fun _ => .seq inferInstance fun _ => ?_
  split <;> infer_instance

instance steady_emitAssignment : Steady D (emitAssignment e n cx) := by
  unfold emitAssignment
  repeat' first
    | with_reducible refine .seq ?_ fun _ => ?_
    | with_reducible refine .branch ?_ ?_
    | infer_instance | dsimp only | split

end Cppward.Emit
