import Cppward.Proofs.Emit.Steady.Expression

namespace Cppward.Emit

open Analysis

/-!
# The code of statements and classes changes the tables step by step

* `emitClass_eq_ok` — a class is added with what its definition says, before the code of its body,
* `steady_emitClass` — the body says whether the class is concrete, and nothing of the classes before it.
-/

variable {α : Type} {D : Nat → Prop} {e : Emitter} [e.Steady D] {n func value type target holder : Node}
variable {cx inner : Context} {name : String}

/-! ### Branches and loops -/

instance steady_returnLastStatements : Steady D (returnLastStatements n) := by
  unfold returnLastStatements
  refine .forEach fun block => .seq inferInstance fun block => .seq inferInstance fun last =>
    .branch (.seq inferInstance fun result => Gen.steady_modifyProgram fun p => ?_) inferInstance
  simp [tables_update, Program.setParent]

instance steady_declaredIn : Steady D (declaredIn e cx n) := by
  unfold declaredIn
  refine Steady.foldEach fun names assign => ?_
  repeat' first
    | with_reducible refine .seq ?_ fun _ => ?_
    | with_reducible refine .branch ?_ ?_
    | infer_instance | dsimp only | split

instance steady_ifText : Steady D (ifText n) := by
  unfold ifText
  infer_instance

instance steady_refuseIf {fault : Fault} : Steady D (refuseIf fault n : Gen α) := by
  unfold refuseIf
  infer_instance

instance steady_checkNoscope {b : Branches} {b' : Bool} : Steady D (checkNoscope e n b b' cx) := by
  unfold checkNoscope
  split <;> infer_instance

instance steady_emitIf : Steady D (emitIf e n cx) := by
  unfold emitIf
  repeat' first
    | with_reducible refine .seq ?_ fun _ => ?_
    | with_reducible refine .check ?_ fun _ => ?_
    | with_reducible refine .branch ?_ ?_
    | infer_instance | dsimp only | split

instance steady_emitWhile : Steady D (emitWhile e n cx) := by
  unfold emitWhile
  refine .seq inferInstance fun _ => ?_
  split <;> infer_instance

instance steady_loopVariable : Steady D (loopVariable e n cx) := by
  unfold loopVariable
  infer_instance

instance steady_emitFor : Steady D (emitFor e n cx) := by
  unfold emitFor
  repeat' first
    | with_reducible refine .seq ?_ fun _ => ?_
    | with_reducible refine .branch ?_ ?_
    | infer_instance | dsimp only | split

/-! ### Functions -/

instance steady_owner? : Steady D (owner? n) := by
  unfold owner?
  repeat' first
    | with_reducible refine .seq ?_ fun _ => ?_
    | with_reducible refine .branch ?_ ?_
    | infer_instance | dsimp only | split

instance steady_templateName : Steady D (templateName e n cx) := by
  unfold templateName
  infer_instance

instance steady_emitBody : Steady D (emitBody e n value cx) := by
  unfold emitBody
  refine .seq inferInstance fun _ => ?_
  split <;> infer_instance

instance steady_single {ns : List Node} {fault : Fault} : Steady D (single ns name fault n) := by
  unfold single
  split <;> infer_instance

instance steady_ofSpecifiers {ns : List Node} {b : Bool} : Steady D (Marks.ofSpecifiers n ns b) := by
  unfold Marks.ofSpecifiers
  repeat' first
    | with_reducible refine .seq ?_ fun _ => ?_
    | with_reducible refine .branch ?_ ?_
    | infer_instance | dsimp only | split

instance steady_specifierText {marks : Marks} {b : Bool} : Steady D (specifierText e n marks b cx) := by
  unfold specifierText
  repeat' first
    | with_reducible refine .seq ?_ fun _ => ?_
    | with_reducible refine .branch ?_ ?_
    | infer_instance | dsimp only | split

instance steady_functionParameter {b : Bool} {i : Nat} : Steady D (functionParameter e b cx i n) := by
  unfold functionParameter
  repeat' first
    | with_reducible refine .seq ?_ fun _ => ?_
    | with_reducible refine .branch ?_ ?_
    | infer_instance | dsimp only | split

instance steady_returnType {ns : List Node} {b : Bool} : Steady D (returnType e n name ns b cx) := by
  unfold returnType
  split <;> infer_instance

instance steady_emitDeclaration {o : Option Node} {b b' : Bool} :
    Steady D (emitDeclaration n o b b' name cx) := by
  unfold emitDeclaration
  repeat' first
    | with_reducible refine .seq ?_ fun _ => ?_
    | with_reducible refine .branch ?_ ?_
    | infer_instance | dsimp only | split

instance steady_emitFunction : Steady D (emitFunction e n cx) := by
  unfold emitFunction
  repeat' first
    | with_reducible refine .seq ?_ fun _ => ?_
    | with_reducible refine .check ?_ fun _ => ?_
    | with_reducible refine .branch ?_ ?_
    | infer_instance | dsimp only | split

/-! ### Classes -/

instance steady_isSelfField : Steady D (isSelfField n) := by
  unfold isSelfField
  infer_instance

instance steady_baseText {o : Option Node} : Steady D (baseText e o cx) := by
  unfold baseText
  split <;> infer_instance

instance steady_addInterface {members : Members} :
    Steady D (Members.addInterface members n target cx) := by
  unfold Members.addInterface
  split
  · infer_instance
  · split <;> infer_instance

instance steady_addMember {head : ClassHead} {members : Members} :
    Steady D (Members.add e head cx inner members n) := by
  unfold Members.add
  repeat' first
    | with_reducible refine .seq ?_ fun _ => ?_
    | with_reducible refine .branch ?_ ?_
    | infer_instance | dsimp only | split

instance steady_lastUses {ns : List Node} : Steady D (Constructor.lastUses ns) := by
  unfold Constructor.lastUses
  infer_instance

instance steady_split {c : Constructor} {ns : List Node} : Steady D (c.split ns) := by
  induction ns generalizing c with
  | nil => exact .pure _
  | cons n ns ih =>
    unfold Constructor.split
    repeat' first
      | with_reducible refine .seq ?_ fun _ => ?_
      | with_reducible refine .branch ?_ ?_
      | infer_instance | dsimp only | split

instance steady_constructor : Steady D (Constructor.ofNode n) := by
  unfold Constructor.ofNode
  infer_instance

instance steady_pushFieldTyped {c : Constructor} {s : Signature} {field : String × FieldType} :
    Steady D (Signature.pushFieldTyped e c cx n s field) := by
  unfold Signature.pushFieldTyped
  split <;> infer_instance

instance steady_addParameter {head : ClassHead} {members : Members} {c : Constructor} {s : Signature} :
    Steady D (Signature.add e n target head members c cx s value) := by
  unfold Signature.add
  refine .seq inferInstance fun _ => .seq inferInstance fun _ => ?_
  split <;> infer_instance

instance steady_emitSuperInit {head : ClassHead} {base : Option String} {s : Signature} :
    Steady D (emitSuperInit e head base s n cx inner) := by
  have hstands : Steady D (n.args.mapM fun a => do
      match a.name?.bind fun name => s.types.lookup name with
      | some type => return "std::declval<" ++ type ++ ">()"
      | none =>
        if ← isSelfField a then Gen.refuse .selfInSuperInit a
        e.node a inner) := by
    refine .mapEach fun a => ?_
    split <;> infer_instance
  unfold emitSuperInit
  repeat' first
    | with_reducible refine .seq ?_ fun _ => ?_
    | with_reducible refine .branch ?_ ?_
    | infer_instance | dsimp only | split

instance steady_emitInterfaceMethod : Steady D (emitInterfaceMethod e n cx) := by
  unfold emitInterfaceMethod
  repeat' first
    | with_reducible refine .seq ?_ fun _ => ?_
    | with_reducible refine .branch ?_ ?_
    | infer_instance | dsimp only | split

instance steady_emitInterface {interface : String × List Node} :
    Steady D (emitInterface e name cx interface) := by
  unfold emitInterface
  infer_instance

instance steady_memberwiseConstructor {members : Members} {code : String} :
    Steady D (memberwiseConstructor name members code cx) := by
  unfold memberwiseConstructor
  refine .seq (.mapEach fun field => .seq inferInstance fun _ => ?_) inferInstance
  dsimp only
  split <;> infer_instance

instance steady_inheritedConstructors {head : ClassHead} {base : Option String} :
    Steady D (inheritedConstructors e head base cx) := by
  unfold inheritedConstructors
  repeat' first
    | with_reducible refine .seq ?_ fun _ => ?_
    | with_reducible refine .branch ?_ ?_
    | infer_instance | dsimp only | split

instance steady_emitConstructor {head : ClassHead} {members : Members} {base : Option String} {i : Nat}
    {c : Constructor} [Fact (¬D i)] :
    Steady D (emitConstructor e n head members base i c cx inner) := by
  unfold emitConstructor
  repeat' first
    | with_reducible refine .seq ?_ fun _ => ?_
    | with_reducible refine .branch ?_ ?_
    | infer_instance | dsimp only | split

instance steady_emitClassBody {head : ClassHead} {i : Nat} [Fact (¬D i)] :
    Steady D (emitClassBody e n target head i cx) := by
  unfold emitClassBody
  repeat' first
    | with_reducible refine .seq ?_ fun _ => ?_
    | with_reducible refine .branch ?_ ?_
    | infer_instance | dsimp only | split

theorem readsOnly_classHead (n : Node) : Gen.ReadsOnly (ClassHead.ofNode n) := by
  have hrefuse {α : Type} (fault : Fault) (n : Node) : Gen.ReadsOnly (Gen.refuse fault n : Gen α) :=
    fun _ _ h => absurd h Gen.refuse_ne_ok
  unfold ClassHead.ofNode
  repeat' first
    | with_reducible refine Gen.ReadsOnly.bind ?_ fun _ => ?_
    | with_reducible exact hrefuse _ _
    | with_reducible exact Gen.readsOnly_need _
    | with_reducible exact Gen.readsOnly_pure _
    | dsimp only | split

/-- What a class definition does: the class gets the next number, with what the definition says at once,
    and the code that follows finds it there. -/
theorem emitClass_eq_ok {code : String} {g g₁ : Generator} (h : emitClass e n cx g = .ok (code, g₁)) :
    ∃ (head : ClassHead) (block? : Option Node) (x : Gen String),
      ClassHead.ofNode (g.program.current n) g = .ok (head, g) ∧
      (¬D g.program.classes.size → Steady D x) ∧
      x { g with program := (g.program.addClass cx
        { name := head.name.name?.getD ""
          definition := (g.program.current n).id
          isUnique := ((g.program.current n).type.map (·.isNamed "unique")).getD false
          isStruct := (g.program.current n).funcName? == some "struct"
          isForward := block?.isNone
          isConcrete := head.params.isNone }).2 } = .ok (code, g₁) := by
  rw [emitClass, Gen.current_bind, Gen.bind_eq_ok] at h
  obtain ⟨head, g', hhead, h⟩ := h
  obtain rfl : g = g' := readsOnly_classHead _ _ _ hhead
  rcases hargs : (g.program.current n).args with _ | ⟨a, _ | ⟨block, _ | _⟩⟩ <;> simp only [hargs] at h
  · obtain ⟨_, _, hrefuse, _⟩ := Gen.bind_eq_ok.mp h
    exact absurd hrefuse Gen.refuse_ne_ok
  · exact ⟨head, none, do return (← Gen.indent cx) ++ "struct " ++ head.name.name?.getD "" ++ ";\n\n",
      hhead, fun _ => inferInstance, h⟩
  · split at h
    · refine ⟨head, some block, emitClassBody e (g.program.current n) block head g.program.classes.size cx,
        hhead, fun hi => ?_, h⟩
      have := Fact.mk hi
      infer_instance
    · obtain ⟨_, _, hrefuse, _⟩ := Gen.bind_eq_ok.mp h
      exact absurd hrefuse Gen.refuse_ne_ok
  · obtain ⟨_, _, hrefuse, _⟩ := Gen.bind_eq_ok.mp h
    exact absurd hrefuse Gen.refuse_ne_ok

instance steady_emitClass : Steady D (emitClass e n cx) := by
  refine ⟨fun g code g₁ h hD => ?_⟩
  obtain ⟨head, block?, x, -, hx, h⟩ := emitClass_eq_ok (D := D) h
  have hnew : ¬D g.program.classes.size := fun h => Nat.lt_irrefl _ (hD _ h)
  obtain ⟨hsize, hchain⟩ := (hx hnew).moves _ _ _ h fun i hi => by
    simpa [Program.addClass, Program.modifyScope] using Nat.lt_succ_of_lt (hD i hi)
  exact ⟨hsize, .head (.addClass _ _ _) hchain⟩

/-! ### Statements -/

instance steady_emitTypedStatement : Steady D (emitTypedStatement e n type cx) := by
  unfold emitTypedStatement
  infer_instance

instance steady_emitStatement : Steady D (emitStatement e n cx) := by
  unfold emitStatement
  repeat' first
    | with_reducible refine .seq ?_ fun _ => ?_
    | with_reducible refine .branch ?_ ?_
    | infer_instance | dsimp only | split

instance steady_emitBlock : Steady D (emitBlock e n cx) := by
  unfold emitBlock
  infer_instance

end Cppward.Emit
