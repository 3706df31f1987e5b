import Cppward.Grammar.Token
import Cppward.Proofs.Emit.Operand
import Cppward.Proofs.Node.Parts
import Cppward.Proofs.Target.Regular

namespace Cppward

open Emit Target List

/-!
# Expressions and what their code should be read as

* `Node.isExpression` — trees of names, numbers, operators, indices and calls.
* `Node.Grouped` — nothing loose is called or selected from, and what is selected is a name.
-/

variable {n part arg lhs rhs func : Node} {op s : String}

/-! ### Expressions -/

/-- Words of the target language that are no names. -/
def targetWords : List String :=
  ["const", "not", "and", "or", "xor", "compl", "bitand", "bitor", "and_eq", "or_eq", "xor_eq", "not_eq",
    "new", "delete", "sizeof", "alignof", "noexcept", "typeid", "co_await", "co_yield"]

def isIdentifier (s : String) : Bool :=
  s != "" && s.toList.all Grammar.isNameChar && !constructWords.contains s && !targetWords.contains s

def isNumeral (s : String) : Bool :=
  s != "" && s.toList.all fun c => Grammar.isNameChar c || c == '.'

def prefixOperators : List String := ["not", "*", "&", "-", "+"]

def binaryOperators : List String :=
  ["*", "/", "%", "+", "-", "<<", ">>", "<=>", "==", "<=", ">=", "<", ">", "!=", "&", "^", "|", "and",
    "or", "in", "+=", "-=", "*=", "/=", "%=", "<<=", ">>=", "&=", "|=", "^="]

/-- The kind of an expression that applies something or not and has so many arguments. -/
def Kind.isExpression (hasFunc : Bool) (arity : Nat) : Kind → Bool
  | .name s => isIdentifier s && !hasFunc && arity == 0
  | .int digits tail | .float digits tail =>
    isNumeral (digits ++ affixText tail) && !hasFunc && arity == 0
  | .unary op => prefixOperators.contains op && !hasFunc && arity == 1
  | .binary .arrow op => op == "->" && !hasFunc && arity == 2
  | .binary .plain op | .binary .bitOr op | .binary .equals op =>
    binaryOperators.contains op && !hasFunc && arity == 2
  | .index => hasFunc && arity == 1
  | .call _ => hasFunc
  | _ => false

namespace Node

/-- A tree of names, numbers, operators, indices and calls, without declared types. -/
def isExpression (n : Node) : Bool :=
  n.walk.all fun m => m.kind.isExpression m.func.isSome m.args.length && m.type.isNone

/-- The prefix operator of the target language. -/
def signText (op : String) : String := if op = "not" then "!" else op

mutual
/-- The expression of the target language that an expression stands for. -/
def shape : Node → Reading
  | ⟨_, kind, func, args, _⟩ =>
    match kind, shapeOption func, shapeList args with
    | .unary op, _, [arg] => .prefixed (signText op) arg
    | .binary .arrow _, _, [lhs, rhs] => .member lhs rhs
    | .binary _ op, _, [lhs, rhs] => .infixed (operatorText op) lhs rhs
    | .index, some target, [place] => .index target place
    | .call _, some func, args => .applied func args
    | kind, _, _ => .name (canonical (kind.leafText?.getD ""))

def shapeOption : Option Node → Option Reading
  | none => none
  | some n => some n.shape

def shapeList : List Node → List Reading
  | [] => []
  | n :: ns => n.shape :: shapeList ns
end

/-! ### Grouped trees -/

/-- An operator whose code is not in parentheses of its own: a negation, or a binary operator that is
    not `nested` in another one. -/
def isBare (nested : Bool) (n : Node) : Bool :=
  match n.kind with
  | .unary op => op == "not"
  | .binary .arrow _ => false
  | .binary _ _ => !nested
  | _ => false

/-- The code of the node can be read at all. -/
def isReadable (n : Node) : Bool :=
  match n.kind with
  | .binary .arrow _ => n.rhs?.any (·.kind.leafText?.isSome)
  | .binary _ op => op != "in"
  | _ => true

/-- What is called or selected from is not bare. -/
def isTight (n : Node) : Bool :=
  match n.kind with
  | .binary .arrow _ => !n.lhs?.any (isBare false)
  | .call _ => !n.func.any (isBare false)
  | _ => true

def callsName (n : Node) : Bool := n.isCall && n.func.any isIdent

mutual
/-- The operands in a tree, the tree itself among them.  A name that is called is none. -/
def operands : Node → List Node
  | ⟨info, kind, func, args, type⟩ =>
    let n : Node := ⟨info, kind, func, args, type⟩
    n :: ((if n.callsName then [] else operandsOption func) ++ operandsList args)

def operandsOption : Option Node → List Node
  | none => []
  | some n => n.operands

def operandsList : List Node → List Node
  | [] => []
  | n :: ns => n.operands ++ operandsList ns
end

/-- The tree is such that its code keeps its structure: members are names, operators are those of the
    target language, nothing bare is called or selected from, and no operand is written as a pointer
    to a class. -/
def Grouped (isPointer : Node → Bool) (n : Node) : Prop :=
  ∀ m ∈ n.operands, m.isReadable = true ∧ m.isTight = true ∧ isPointer m = false

def operandParts (n : Node) : List Node := (if n.callsName then [] else n.func.toList) ++ n.args

theorem operands_eq (n : Node) : n.operands = n :: n.operandParts.flatMap operands := by
  have hlist : ∀ ns : List Node, operandsList ns = ns.flatMap operands :=
    eq_flatMap rfl fun _ _ => rfl
  obtain ⟨info, kind, func, args, type⟩ := n
  rw [operands, operandParts, flatMap_append, hlist]
  split
  · rfl
  · cases func <;> simp [operandsOption]

theorem forall_mem_operands {P : Node → Prop} :
    (∀ m ∈ n.operands, P m) ↔ P n ∧ ∀ part ∈ n.operandParts, ∀ m ∈ part.operands, P m := by
  rw [operands_eq]
  simp only [mem_cons, mem_flatMap, forall_eq_or_imp]
  constructor
  · rintro ⟨hn, h⟩
    exact ⟨hn, fun part hpart m hm => h m ⟨part, hpart, hm⟩⟩
  · rintro ⟨hn, h⟩
    exact ⟨hn, fun m ⟨part, hpart, hm⟩ => h part hpart m hm⟩

/-! ### Parts of an expression -/

theorem isExpression_part (h : n.isExpression = true) (hpart : part ∈ n.parts) :
    part.isExpression = true := by
  rw [isExpression, all_eq_true] at h ⊢
  exact fun m hm => h m (mem_walk_of_mem_parts hpart hm)

theorem isExpression_kind (h : n.isExpression = true) :
    n.kind.isExpression n.func.isSome n.args.length = true ∧ n.type = none := by
  rw [isExpression, all_eq_true] at h
  simpa using h n n.self_mem_walk

theorem mem_operandParts (h : part ∈ n.operandParts) : n.func = some part ∨ part ∈ n.args := by
  unfold operandParts at h
  split at h <;> simp_all [Option.mem_toList]

theorem mem_parts_of_mem_operandParts (h : part ∈ n.operandParts) : part ∈ n.parts := by
  rcases mem_operandParts h with h | h <;> simp [parts, h]

/-- What an expression is made of. -/
inductive Form (n : Node) : Prop
  | name (s : String) (hkind : n.kind = .name s) (hs : isIdentifier s = true)
      (hparts : n.operandParts = [])
  | number (s : String) (hleaf : n.kind.leafText? = some s) (hs : isNumeral s = true)
      (hkind : (∃ digits tail, n.kind = .int digits tail) ∨ ∃ digits tail, n.kind = .float digits tail)
      (hparts : n.operandParts = [])
  | unary (op : String) (arg : Node) (hkind : n.kind = .unary op) (hop : op ∈ prefixOperators)
      (hargs : n.args = [arg]) (hparts : n.operandParts = [arg])
  | arrow (lhs rhs : Node) (hkind : n.kind = .binary .arrow "->") (hargs : n.args = [lhs, rhs])
      (hparts : n.operandParts = [lhs, rhs])
  | binary (cls : Binary) (op : String) (lhs rhs : Node) (hkind : n.kind = .binary cls op)
      (hcls : cls = .plain ∨ cls = .bitOr ∨ cls = .equals) (hop : op ∈ binaryOperators)
      (hargs : n.args = [lhs, rhs]) (hparts : n.operandParts = [lhs, rhs])
  | index (func arg : Node) (hkind : n.kind = .index) (hfunc : n.func = some func)
      (hargs : n.args = [arg]) (hparts : n.operandParts = [func, arg])
  | call (func : Node) (hkind : n.isCall = true) (hfunc : n.func = some func)

/-- Every expression has one of the forms. -/
theorem form_of_isExpression (h : n.isExpression = true) : n.Form := by
  have hkind := (isExpression_kind h).1
  have hparts : n.func = none → n.operandParts = n.args := by
    intro hfunc
    simp [operandParts, hfunc]
  -- the kind fixes how many operands there are
  cases hk : n.kind with
  | name s =>
    rw [hk] at hkind
    simp only [Kind.isExpression, Bool.and_eq_true, Bool.not_eq_true', Option.isSome_eq_false_iff,
      Option.isNone_iff_eq_none, beq_iff_eq] at hkind
    exact .name s hk hkind.1.1
      ((hparts hkind.1.2).trans (length_eq_zero_iff.mp hkind.2))
  | int digits tail | float digits tail =>
    rw [hk] at hkind
    simp only [Kind.isExpression, Bool.and_eq_true, Bool.not_eq_true', Option.isSome_eq_false_iff,
      Option.isNone_iff_eq_none, beq_iff_eq] at hkind
    exact .number _ (by rw [hk]; rfl) hkind.1.1 (by simp [hk])
      ((hparts hkind.1.2).trans (length_eq_zero_iff.mp hkind.2))
  | unary op =>
    rw [hk] at hkind
    simp only [Kind.isExpression, Bool.and_eq_true, Bool.not_eq_true', Option.isSome_eq_false_iff,
      Option.isNone_iff_eq_none, contains_eq_mem, decide_eq_true_eq, beq_iff_eq] at hkind
    obtain ⟨arg, hargs⟩ := length_eq_one_iff.mp hkind.2
    exact .unary op arg hk hkind.1.1 hargs ((hparts hkind.1.2).trans hargs)
  | binary cls op =>
    rw [hk] at hkind
    have hrest : n.func = none ∧ n.args.length = 2 := by
      cases cls <;> simp_all [Kind.isExpression]
    obtain ⟨lhs, rhs, hargs⟩ := length_eq_two.mp hrest.2
    have hoperands := (hparts hrest.1).trans hargs
    cases cls with
    | arrow =>
      obtain rfl : op = "->" := by simp_all [Kind.isExpression]
      exact .arrow lhs rhs hk hargs hoperands
    | plain | bitOr | equals =>
      have hop : op ∈ binaryOperators := by simp_all [Kind.isExpression]
      exact .binary _ op lhs rhs hk (by simp) hop hargs hoperands
    | _ => cases hkind
  | index =>
    rw [hk] at hkind
    simp only [Kind.isExpression, Bool.and_eq_true, beq_iff_eq] at hkind
    obtain ⟨func, hfunc⟩ := Option.isSome_iff_exists.mp hkind.1
    obtain ⟨arg, hargs⟩ := length_eq_one_iff.mp hkind.2
    exact .index func arg hk hfunc hargs (by simp [operandParts, callsName, isCall, hk, hfunc, hargs])
  | call oneLiner =>
    rw [hk] at hkind
    obtain ⟨func, hfunc⟩ := Option.isSome_iff_exists.mp hkind
    exact .call func (by simp [isCall, hk]) hfunc
  | _ => rw [hk] at hkind; cases hkind

theorem isExpression_operandPart (h : n.isExpression = true)
    (hpart : part ∈ n.operandParts) : part.isExpression = true :=
  isExpression_part h (mem_parts_of_mem_operandParts hpart)

theorem expressionInduction {motive : ∀ n : Node, n.isExpression = true → Prop}
    (step : ∀ n hexpr, (∀ part (hpart : part ∈ n.operandParts),
      motive part (isExpression_operandPart hexpr hpart)) → motive n hexpr)
    (n : Node) (hexpr : n.isExpression = true) : motive n hexpr := by
  induction n using Node.induction with
  | step n hfunc hargs _ =>
    refine step n hexpr fun part hpart => ?_
    rcases mem_operandParts hpart with hmem | hmem
    · exact hfunc part hmem _
    · exact hargs part hmem _

/-! ### Shapes -/

theorem shapeList_eq (ns : List Node) : shapeList ns = ns.map shape :=
  eq_map rfl (fun _ _ => rfl) ns

theorem shape_eq (n : Node) : n.shape =
    match n.kind, n.func.map shape, n.args.map shape with
    | .unary op, _, [arg] => .prefixed (signText op) arg
    | .binary .arrow _, _, [lhs, rhs] => .member lhs rhs
    | .binary _ op, _, [lhs, rhs] => .infixed (operatorText op) lhs rhs
    | .index, some target, [place] => .index target place
    | .call _, some func, args => .applied func args
    | kind, _, _ => .name (canonical (kind.leafText?.getD "")) := by
  have hoption : ∀ o : Option Node, shapeOption o = o.map shape := by
    intro o
    cases o <;> rfl
  obtain ⟨info, kind, func, args, type⟩ := n
  rw [shape.eq_def]
  dsimp only
  rw [hoption, shapeList_eq]

theorem shape_unary (hkind : n.kind = .unary op)
    (hargs : n.args = [arg]) : n.shape = .prefixed (signText op) arg.shape := by
  rw [shape_eq, hkind, hargs]
  rfl

theorem shape_arrow (hkind : n.kind = .binary .arrow op)
    (hargs : n.args = [lhs, rhs]) : n.shape = .member lhs.shape rhs.shape := by
  rw [shape_eq, hkind, hargs]
  rfl

theorem shape_binary {cls : Binary} (hkind : n.kind = .binary cls op)
    (hcls : cls ≠ .arrow) (hargs : n.args = [lhs, rhs]) :
    n.shape = .infixed (operatorText op) lhs.shape rhs.shape := by
  rw [shape_eq, hkind, hargs]
  cases cls <;> first | rfl | exact absurd rfl hcls

theorem shape_index (hkind : n.kind = .index) (hfunc : n.func = some func)
    (hargs : n.args = [arg]) : n.shape = .index func.shape arg.shape := by
  rw [shape_eq, hkind, hfunc, hargs]
  rfl

theorem shape_call (hkind : n.isCall = true) (hfunc : n.func = some func) :
    n.shape = .applied func.shape (n.args.map shape) := by
  unfold isCall at hkind
  split at hkind
  · rename_i hk
    rw [shape_eq, hk, hfunc]
    rfl
  · cases hkind

theorem shape_leaf (hleaf : n.kind.leafText? = some s) : n.shape = .name (canonical s) := by
  rw [shape_eq]
  cases hk : n.kind <;> rw [hk] at hleaf <;> cases hleaf <;> rfl

/-! ### Trees that can be read -/

/-- Every operator but one is an operator of the target language. -/
theorem isSome_lookup_operatorText (hop : op ∈ binaryOperators) :
    (precedences.lookup (operatorText op)).isSome = true ↔ op ≠ "in" := by
  have hall : ∀ op ∈ binaryOperators,
      ((precedences.lookup (operatorText op)).isSome = true ↔ op ≠ "in") := by decide
  exact hall op hop

theorem isSome_leafText?_of_shape (hexpr : n.isExpression = true)
    (h : n.shape = .name s) : n.kind.leafText?.isSome = true := by
  cases form_of_isExpression hexpr with
  | name s hkind => rw [hkind]; rfl
  | number s hleaf => rw [hleaf]; rfl
  | unary op arg hkind hop hargs => rw [shape_unary hkind hargs] at h; cases h
  | arrow lhs rhs hkind hargs => rw [shape_arrow hkind hargs] at h; cases h
  | binary cls op lhs rhs hkind hcls hop hargs =>
    rw [shape_binary hkind (by rcases hcls with rfl | rfl | rfl <;> simp) hargs] at h
    cases h
  | index func arg hkind hfunc hargs => rw [shape_index hkind hfunc hargs] at h; cases h
  | call func hkind hfunc => rw [shape_call hkind hfunc] at h; cases h

/-- A tree whose shape can be read is made of parts that can. -/
theorem isReadable_of_isRegular (hexpr : n.isExpression = true) :
    n.shape.isRegular = true → ∀ m ∈ n.operands, m.isReadable = true := by
  induction n, hexpr using expressionInduction with
  | step n hexpr ih =>
    intro h
    rw [forall_mem_operands]
    cases form_of_isExpression hexpr with
    | name s hkind hs hparts =>
      rw [hparts]
      exact ⟨by simp [isReadable, hkind], by simp⟩
    | number s hleaf hs hkind hparts =>
      rw [hparts]
      rcases hkind with ⟨digits, tail, hkind⟩ | ⟨digits, tail, hkind⟩ <;>
        exact ⟨by simp [isReadable, hkind], by simp⟩
    | unary op arg hkind hop hargs hparts =>
      rw [shape_unary hkind hargs] at h
      rw [hparts] at ih ⊢
      simp only [mem_singleton, forall_eq] at ih ⊢
      exact ⟨by simp [isReadable, hkind], ih h⟩
    | arrow lhs rhs hkind hargs hparts =>
      have hrexpr : rhs.isExpression = true := isExpression_operandPart hexpr (by simp [hparts])
      rw [shape_arrow hkind hargs] at h
      rw [hparts] at ih ⊢
      simp only [mem_cons, not_mem_nil, or_false, forall_eq_or_imp, forall_eq] at ih ⊢
      -- Only a word can be read after an arrow.
      cases hshape : rhs.shape with
      | name s =>
        have hleaf := isSome_leafText?_of_shape hrexpr hshape
        rw [hshape] at h
        exact ⟨by simp [isReadable, hkind, rhs?, hargs, hleaf], ih.1 h, ih.2 (by rw [hshape]; rfl)⟩
      | _ => rw [hshape] at h; cases h
    | binary cls op lhs rhs hkind hcls hop hargs hparts =>
      rw [shape_binary hkind (by rcases hcls with rfl | rfl | rfl <;> simp) hargs] at h
      simp only [Reading.isRegular, Bool.and_eq_true, isSome_lookup_operatorText hop] at h
      rw [hparts] at ih ⊢
      simp only [mem_cons, not_mem_nil, or_false, forall_eq_or_imp, forall_eq] at ih ⊢
      refine ⟨?_, ih.1 h.1.2, ih.2 h.2⟩
      rcases hcls with rfl | rfl | rfl <;> simpa [isReadable, hkind] using h.1.1
    | index func arg hkind hfunc hargs hparts =>
      rw [shape_index hkind hfunc hargs] at h
      simp only [Reading.isRegular, Bool.and_eq_true] at h
      rw [hparts] at ih ⊢
      simp only [mem_cons, not_mem_nil, or_false, forall_eq_or_imp, forall_eq] at ih ⊢
      exact ⟨by simp [isReadable, hkind], ih.1 h.1, ih.2 h.2⟩
    | call func hkind hfunc =>
      rw [shape_call hkind hfunc] at h
      simp only [Reading.isRegular, Bool.and_eq_true, isRegularList_iff, mem_map,
        forall_exists_index, and_imp, forall_apply_eq_imp_iff₂] at h
      have hreadable : n.isReadable = true := by
        unfold isCall at hkind
        split at hkind <;> simp_all [isReadable]
      refine ⟨hreadable, fun part hpart => ih part hpart ?_⟩
      rcases mem_operandParts hpart with hmem | hmem
      · obtain rfl : func = part := Option.some.inj (hfunc.symm.trans hmem)
        exact h.1
      · exact h.2 part hmem

end Node

end Cppward
