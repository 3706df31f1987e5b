import Cppward.Proofs.Analysis.Holding
import Cppward.Proofs.Emit.Shape

namespace Cppward

open Analysis Emit Target

/-!
# The code of expressions

* `Emits`, `emits_of_ok` — the code of an expression in terms of the code of its parts,
* `state_of_emitted` — an expression is written without a change of the state.
-/

namespace Emit

open Node

variable {cx : Context} {g g' : Generator} {n : Node} {k : Nat} {code : String}

/-- The code of an expression, in terms of the code of its parts at depth `k`.  The state may change
    on the way, as far as this says. -/
inductive Emits (k : Nat) (cx : Context) (g : Generator) (n : Node) (code : String)
    (g' : Generator) : Prop
  | name (s : String) (hkind : n.kind = .name s) (hs : isIdentifier s = true)
      (hparts : n.operandParts = []) (h : emitName n s cx g = .ok (code, g'))
  | number (hleaf : n.kind.leafText? = some code) (hs : isNumeral code = true)
      (hname : n.name? = none) (hparts : n.operandParts = []) (hstate : g = g')
  | unary (op : String) (arg : Node) (argCode : String) (hkind : n.kind = .unary op)
      (hop : op ∈ prefixOperators) (hargs : n.args = [arg]) (hparts : n.operandParts = [arg])
      (harg : (emitter k).node arg cx g = .ok (argCode, g'))
      (hcode : code = if op = "not" then "!" ++ argCode else parens (op ++ argCode))
  | arrow (lhs rhs : Node) (left right : String) (g₁ : Generator)
      (hkind : n.kind = .binary .arrow "->") (hargs : n.args = [lhs, rhs])
      (hparts : n.operandParts = [lhs, rhs])
      (hlhs : (emitter k).node lhs cx g = .ok (left, g₁))
      (hrhs : (emitter k).node rhs cx g₁ = .ok (right, g'))
      (hcode : code = if inParens g'.program n then parens (left ++ " " ++ "->" ++ " " ++ right)
        else left ++ " " ++ "->" ++ " " ++ right)
  | binary (cls : Binary) (op : String) (lhs rhs : Node) (left right : String) (g₁ : Generator)
      (hkind : n.kind = .binary cls op) (hcls : cls = .plain ∨ cls = .bitOr ∨ cls = .equals)
      (hop : op ∈ binaryOperators) (hargs : n.args = [lhs, rhs]) (hparts : n.operandParts = [lhs, rhs])
      (hlhs : (emitter k).node lhs cx g = .ok (left, g₁))
      (hrhs : (emitter k).node rhs cx g₁ = .ok (right, g'))
      (hcode : code = if inParens g'.program n then
          parens (left ++ " " ++ operatorText op ++ " " ++ right)
        else left ++ " " ++ operatorText op ++ " " ++ right)
  | index (func arg : Node) (target place : String) (g₁ : Generator) (hkind : n.kind = .index)
      (hfunc : n.func = some func) (hargs : n.args = [arg]) (hparts : n.operandParts = [func, arg])
      (htarget : (emitter k).node func cx g = .ok (target, g₁))
      (hplace : (emitter k).node arg cx g₁ = .ok (place, g'))
      (hcode : code = "ceto::bounds_check(" ++ target ++ "," ++ place ++ ")")
  | plainCall (func : Node) (s : String) (codes : List String) (hkind : n.isCall = true)
      (hfunc : n.func = some func) (hname : func.kind = .name s) (hs : isIdentifier s = true)
      (hparts : n.operandParts = n.args)
      (hargs : n.args.mapM ((emitter k).node · cx) g = .ok (codes, g'))
      (hcode : code = s ++ parens (commas codes) ∨
        ∃ c isConst, code = instanceText c isConst n.args.isEmpty s (commas codes))
  | call (func : Node) (target : String) (codes : List String) (g₁ : Generator)
      (hkind : n.isCall = true) (hfunc : n.func = some func)
      (hparts : n.operandParts = func :: n.args)
      (htarget : (emitter k).node func cx g = .ok (target, g₁))
      (hargs : n.args.mapM ((emitter k).node · cx) g₁ = .ok (codes, g'))
      (hcode : code = target ++ parens (commas codes))

/-- No expression is a lambda. -/
theorem isLambda_eq_false (hexpr : n.isExpression = true) : n.isLambda = false := by
  -- no name in an expression is a word for a construct
  have hword : ∀ f : Node, f.isExpression = true → f.name? ≠ some "lambda" := by
    intro f hf hname
    have hkind := (isExpression_kind hf).1
    cases hk : f.kind with
    | name s =>
      obtain rfl : s = "lambda" := by simpa [name?, hk] using hname
      rw [hk] at hkind
      simp only [Kind.isExpression, Bool.and_eq_true] at hkind
      exact absurd hkind.1.1 (by decide)
    | _ => simp [name?, hk] at hname
  unfold isLambda
  cases hf : n.func with
  | none => simp [funcName?, hf]
  | some f =>
    have hfexpr := isExpression_part hexpr (func_mem_parts hf)
    have h₁ : (n.funcName? == some "lambda") = false := by
      rw [funcName?, hf, Option.bind_some]
      exact beq_false_of_ne (hword f hfexpr)
    have h₂ : (f.funcName? == some "lambda") = false := by
      cases hff : f.func with
      | none => simp [funcName?, hff]
      | some f' =>
        rw [funcName?, hff, Option.bind_some]
        exact beq_false_of_ne (hword f' (isExpression_part hfexpr (func_mem_parts hff)))
    simp [h₁, h₂]

/-- The code of a call, for each kind of function. -/
theorem emits_call {func : Node} (hexpr : n.isExpression = true) (hkind : n.isCall = true)
    (hfunc : n.func = some func) (h : emitCall (emitter k) n cx g = .ok (code, g')) :
    Emits k cx g n code g' := by
  have hlambda := isLambda_eq_false hexpr
  have hfexpr := isExpression_part hexpr (func_mem_parts hfunc)
  -- A name that is called is not generated as a node of its own, anything else is.
  cases hname : func.name? with
  | some s =>
    have hk : func.kind = .name s := by
      unfold name? at hname
      split at hname <;> simp_all
    have hs : isIdentifier s = true := by
      have hfkind := (isExpression_kind hfexpr).1
      rw [hk] at hfkind
      simp only [Kind.isExpression, Bool.and_eq_true] at hfkind
      exact hfkind.1.1
    have hword : s ∉ constructWords := by
      simp only [isIdentifier, Bool.and_eq_true, Bool.not_eq_true', List.contains_eq_mem,
        decide_eq_false_iff_not] at hs
      exact hs.1.2
    have hfn : n.funcName? = some s := by rw [funcName?, hfunc, Option.bind_some, hname]
    rw [emitCall_name hlambda hfn hword] at h
    obtain ⟨codes, hcodes, hcode⟩ := emitPlainCall_eq_ok hword h
    have hparts : n.operandParts = n.args := by
      simp [operandParts, callsName, hkind, hfunc, isIdent, hname]
    exact .plainCall func s codes hkind hfunc hk hs hparts hcodes hcode
  | none =>
    have hfn : n.funcName? = none := by rw [funcName?, hfunc, Option.bind_some, hname]
    have hchain : (func.isAttribute || func.isScope) = false := by
      unfold isAttribute isScope binary?
      cases form_of_isExpression hfexpr with
      | arrow lhs rhs hkind => rw [hkind]; rfl
      | binary cls op lhs rhs hkind hcls => rw [hkind]; rcases hcls with rfl | rfl | rfl <;> rfl
      | call func' hkind => unfold isCall at hkind; split at hkind <;> simp_all
      | number s hleaf hs hkind =>
        rcases hkind with ⟨_, _, hkind⟩ | ⟨_, _, hkind⟩ <;> rw [hkind] <;> rfl
      | _ => simp_all
    rw [emitCall_func hlambda hfn] at h
    obtain ⟨target, g₁, codes, htarget, hcodes, hcode⟩ := emitMethodCall_eq_ok hfunc hchain h
    have hparts : n.operandParts = func :: n.args := by
      simp [operandParts, callsName, hfunc, isIdent, hname]
    exact .call func target codes g₁ hkind hfunc hparts htarget hcodes hcode

/-- The code of every kind of expression. -/
theorem emits_of_ok (hexpr : n.isExpression = true) (hcurrent : g.program.current n = n)
    (h : (emitter (k + 1)).node n cx g = .ok (code, g')) : Emits k cx g n code g' := by
  change emitNode (emitter k) n cx g = _ at h
  rw [emitNode_apply hcurrent (isExpression_kind hexpr).2] at h
  unfold emitUntyped at h
  -- one form for each way that `emitUntyped` goes
  cases form_of_isExpression hexpr with
  | name s hkind hs hparts =>
    rw [hkind] at h
    exact .name s hkind hs hparts h
  | number s hleaf hs hkind hparts =>
    have htext : (pure n.text : Gen String) g = .ok (code, g') := by
      rcases hkind with ⟨_, _, hkind⟩ | ⟨_, _, hkind⟩ <;> rw [hkind] at h <;> exact h
    have hname : n.name? = none := by
      rcases hkind with ⟨_, _, hkind⟩ | ⟨_, _, hkind⟩ <;> simp [name?, hkind]
    rw [text_of_leafText? hleaf] at htext
    cases Gen.pure_eq_ok.mp htext
    exact .number hleaf hs hname hparts rfl
  | unary op arg hkind hop hargs hparts =>
    have hcolon : op ≠ ":" := by
      rintro rfl
      exact absurd hop (by decide)
    rw [hkind, hargs] at h
    obtain ⟨argCode, harg, hcode⟩ := emitUnary_eq_ok hcolon h
    exact .unary op arg argCode hkind hop hargs hparts harg hcode
  | arrow lhs rhs hkind hargs hparts =>
    rw [hkind] at h
    obtain ⟨left, g₁, right, hlhs, hrhs, hcode⟩ := emitOperator_eq_ok hargs hkind rfl h
    exact .arrow lhs rhs left right g₁ hkind hargs hparts hlhs hrhs hcode
  | binary cls op lhs rhs hkind hcls hop hargs hparts =>
    have hwritten : isWritten cls = true := by rcases hcls with rfl | rfl | rfl <;> rfl
    rw [hkind] at h
    obtain ⟨left, g₁, right, hlhs, hrhs, hcode⟩ := emitOperator_eq_ok hargs hkind hwritten h
    exact .binary cls op lhs rhs left right g₁ hkind hcls hop hargs hparts hlhs hrhs hcode
  | index func arg hkind hfunc hargs hparts =>
    rw [hkind] at h
    obtain ⟨func', arg', target, g₁, place, hfunc', hargs', htarget, hplace, hcode⟩ :=
      emitIndex_eq_ok h
    obtain rfl : func = func' := Option.some.inj (hfunc.symm.trans hfunc')
    obtain rfl : arg = arg' := List.singleton_inj.mp (hargs.symm.trans hargs')
    exact .index func arg target place g₁ hkind hfunc hargs hparts htarget hplace hcode
  | call func hkind hfunc =>
    have hcall : emitCall (emitter k) n cx g = .ok (code, g') := by
      unfold isCall at hkind
      split at hkind
      · rename_i hk
        rw [hk] at h
        exact h
      · cases hkind
    exact emits_call hexpr hkind hfunc hcall

theorem isIdentifier_ne_dots {s : String} (hs : isIdentifier s = true) : s ≠ "..." := by
  rintro rfl
  exact absurd hs (by decide)

/-- Expressions are written without any effect. -/
theorem state_of_emitted (hexpr : n.isExpression = true) (hheld : g.program.Holds n)
    (h : (emitter k).node n cx g = .ok (code, g')) : g = g' := by
  induction n, hexpr using expressionInduction generalizing k code g' with
  | step n hexpr ih =>
    cases k with
    | zero => cases h
    | succ k =>
      have ih' : ∀ part ∈ n.operandParts, ∀ code g',
          (emitter k).node part cx g = .ok (code, g') → g' = g := fun part hpart code g' h =>
        (ih part hpart (hheld.part (mem_parts_of_mem_operandParts hpart)) h).symm
      cases emits_of_ok hexpr hheld.current h with
      | name s hkind hs hparts h => exact (emitName_eq_ok hkind (isIdentifier_ne_dots hs) h).1
      | number hleaf hs hname hparts hstate => exact hstate
      | unary op arg argCode hkind hop hargs hparts harg hcode =>
        exact (ih' arg (by simp [hparts]) _ _ harg).symm
      | arrow lhs rhs left right g₁ hkind hargs hparts hlhs hrhs hcode =>
        obtain rfl := ih' lhs (by simp [hparts]) _ _ hlhs
        exact (ih' rhs (by simp [hparts]) _ _ hrhs).symm
      | binary cls op lhs rhs left right g₁ hkind hcls hop hargs hparts hlhs hrhs hcode =>
        obtain rfl := ih' lhs (by simp [hparts]) _ _ hlhs
        exact (ih' rhs (by simp [hparts]) _ _ hrhs).symm
      | index func arg target place g₁ hkind hfunc hargs hparts htarget hplace hcode =>
        obtain rfl := ih' func (by simp [hparts]) _ _ htarget
        exact (ih' arg (by simp [hparts]) _ _ hplace).symm
      | plainCall func s codes hkind hfunc hname hs hparts hcodes hcode =>
        exact (Gen.mapM_eq_ok (fun a ha => ih' a (by simp [hparts, ha])) hcodes).1.symm
      | call func target codes g₁ hkind hfunc hparts htarget hcodes hcode =>
        obtain rfl := ih' func (by simp [hparts]) _ _ htarget
        exact (Gen.mapM_eq_ok (fun a ha => ih' a (by simp [hparts, ha])) hcodes).1.symm

end Emit
end Cppward
