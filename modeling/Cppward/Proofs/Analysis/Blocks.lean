import Cppward.Emit.Branch
import Cppward.Proofs.Analysis.Branching
import Cppward.Proofs.Failing
import Cppward.Proofs.Node.Parts

namespace Cppward.Analysis

open List Node

open Emit (Branches)
open Failing (bind_eq_ok mapM_eq_ok mapMOption_eq_ok exists_mem_of_forall₂)

/-!
# Blocks in a whole program

The pass over a program gives every `if` blocks, wherever it stands, so that the stages behind it can
take its branches apart.

* `Within` — the depth that the pass needs for a node.  Its three levels for each level of the tree
  are enough (`within_size`), and no node is left as it was.
* `Outside` — the nodes of a program that stand outside macro definitions.
* `exists_written_of_expandBodies` — every `if` outside macro definitions has blocks only.
-/

variable {inline : Nat} {b : FurtherBranches} {args args' : List Node}

/-! ### Branches taken apart -/

/-- What conditions and blocks say. -/
def Branching.ofBranches (b : Branches) : Branching where
  condition := b.condition
  body := b.body.args
  elifs := b.elifs.map fun (condition, block) => (condition, block.args)
  otherwise := b.otherwise.map Node.args

/-- Further branches with blocks are pairs that start with `elif`, and at their end the word `else`
    with its block. -/
theorem WrittenFurther.exists_elifs {rest : List Node}
    (h : WrittenFurther inline b rest) (hblocks : inline = 0) :
    ∃ front pairs, Branches.elifsOf? front = some pairs ∧
      pairs.map (fun (condition, block) => (condition, block.args)) = b.1 ∧
      ((rest = front ∧ b.2 = none ∧
          (front = [] ∨ ∃ before head block, front = before ++ [head, block] ∧
            head.isTyped = true)) ∨
        ∃ word block, rest = front ++ [word, block] ∧ word.isNamed "else" = true ∧
          block.isBlock = true ∧ b.2 = some block.args) := by
  induction h with
  | nil => exact ⟨[], [], rfl, rfl, .inl ⟨rfl, rfl, .inl rfl⟩⟩
  | @elif _ elifs otherwise head word condition block rest hhead hword hblock _ ih =>
    obtain ⟨front, pairs, hpairs, hcontent, hrest⟩ := ih hblocks
    refine ⟨head :: block :: front, (condition, block) :: pairs, ?_, ?_, ?_⟩
    · have hrhs : head.rhs? = some condition := by simp [rhs?, hhead.2]
      simp [Branches.elifsOf?, hhead.1, lhsName?_of_isNamed hhead.2 hword, hrhs, hpairs]
    · simpa using hcontent
    · rcases hrest with ⟨rfl, hnone, hlast⟩ | ⟨word', last, rfl, hword', hlast, hsome⟩
      · refine .inl ⟨rfl, hnone, .inr ?_⟩
        rcases hlast with rfl | ⟨before, head', block', rfl, htyped⟩
        · exact ⟨[], head, block, rfl, hhead.1⟩
        · exact ⟨head :: block :: before, head', block', rfl, htyped⟩
      · exact .inr ⟨word', last, rfl, hword', hlast, hsome⟩
  | elifInline _ _ _ _ => omega
  | @otherwise word block hword hblock =>
    exact ⟨[], [], rfl, rfl, .inr ⟨word, block, rfl, hword, hblock, rfl⟩⟩
  | otherwiseInline _ _ => omega

/-- Arguments that write all branches with blocks are taken apart into what they say. -/
theorem exists_branches {b : Branching} (h : Written 0 b args) :
    ∃ branches, Branches.ofArgs? args = some branches ∧ Branching.ofBranches branches = b := by
  cases h with
  | @block _ elifs otherwise condition body rest hbody hrest =>
    obtain ⟨front, pairs, hpairs, hcontent, hcases⟩ := hrest.exists_elifs rfl
    have hsays (o : Option Node) (ho : otherwise = o.map Node.args) :
        .ofBranches ⟨condition, body, pairs, o⟩ = (⟨condition, body.args, elifs, otherwise⟩ : Branching) := by
      rw [Branching.ofBranches, Branching.mk.injEq]
      exact ⟨rfl, rfl, hcontent, ho.symm⟩
    rcases hcases with ⟨rfl, hnone, rfl | ⟨before, head, block, rfl, htyped⟩⟩ |
      ⟨word, block, rfl, hword, hblock, hsome⟩
    · -- neither `elif` nor `else`
      obtain rfl : [] = pairs := by simpa [Branches.elifsOf?] using hpairs
      exact ⟨_, by simp [Branches.ofArgs?, hbody], hsays none hnone⟩
    · -- the last pair starts with `elif`
      have hnamed : head.isNamed "else" = false := by
        by_contra hnamed
        rw [Bool.not_eq_false] at hnamed
        rw [isTyped_of_isNamed hnamed] at htyped
        cases htyped
      exact ⟨_, by simp [Branches.ofArgs?, hbody, hnamed, hpairs], hsays none hnone⟩
    · exact ⟨_, by simp [Branches.ofArgs?, hbody, hword, hblock, hpairs], hsays (some block) hsome⟩

/-! ### Depth -/

/-- The levels that a node of the kind can take once its bodies have blocks.  A body gets a block and
    a `return` at most, and blocks, names and operators get nothing. -/
def levels : Kind → Nat
  | .block | .module | .name _ | .binary .. => 1
  | _ => 3

/-- The node has at most `depth` levels, and its bodies still have room for their blocks. -/
inductive Within : (depth : Nat) → Node → Prop
  | intro {depth below : Nat} {n : Node} (hbelow : below + levels n.kind ≤ depth)
      (hfunc : ∀ f ∈ n.func, Within below f) (hargs : ∀ a ∈ n.args, Within below a) :
      Within depth n

theorem levels_bounds (k : Kind) : 1 ≤ levels k ∧ levels k ≤ 3 := by
  unfold levels
  split <;> omega

namespace Within

theorem mono {depth depth' : Nat} {n : Node} (h : Within depth n) (hle : depth ≤ depth') :
    Within depth' n := by
  cases h with
  | intro hbelow hfunc hargs => exact .intro (Nat.le_trans hbelow hle) hfunc hargs

theorem pos {depth : Nat} {n : Node} (h : Within depth n) : 0 < depth := by
  cases h with
  | intro hbelow _ _ =>
    have := levels_bounds n.kind
    omega

theorem operands {depth : Nat} {n lhs rhs : Node} (h : Within depth n) (hcolon : IsColon n lhs rhs) :
    ∃ below, below + 1 = depth ∧ (∀ f ∈ n.func, Within below f) ∧ Within below lhs ∧
      Within below rhs := by
  have hpos := h.pos
  cases h with
  | @intro _ below _ hbelow hfunc hargs =>
    have hlevels := levels_bounds n.kind
    rw [hcolon.2] at hargs
    refine ⟨depth - 1, by omega, fun f hf => (hfunc f hf).mono (by omega), ?_, ?_⟩
    · exact (hargs lhs (by simp)).mono (by omega)
    · exact (hargs rhs (by simp)).mono (by omega)

theorem ofBlock {below : Nat} {statement : Node} (h : Within below statement) :
    Within (below + 1) (ofBlock [statement]) := by
  refine .intro (Nat.le_refl (below + 1)) (fun f hf => by cases hf) fun a ha => ?_
  rwa [mem_singleton.mp ha]

/-- A body that gets a block takes no more levels than the colon it stood behind. -/
theorem kept (depth : Nat) : Kept (Within depth) where
  body {n condition statement} hcolon h := by
    obtain ⟨below, rfl, -, hcondition, hstatement⟩ := h.operands hcolon
    exact ⟨hcondition.mono (by omega), hstatement.ofBlock⟩
  elif {n word branch condition statement} hhead hbranch h := by
    obtain ⟨below, rfl, hfunc, hword, hbranch'⟩ := h.operands hhead
    obtain ⟨below', rfl, -, hcondition, hstatement⟩ := hbranch'.operands hbranch
    refine ⟨.intro (Nat.le_refl (below' + 1 + 1)) hfunc ?_, hstatement.ofBlock.mono (by omega)⟩
    simp only [elifHead, forall_mem_cons]
    exact ⟨hword, hcondition.mono (by omega), by simp⟩

end Within

/-- Three levels for every node are enough. -/
theorem within_size (n : Node) : Within (3 * n.size) n := by
  induction n using Node.induction with
  | step n hfunc hargs _ =>
    have hlevels := (levels_bounds n.kind).2
    have hsize : n.size = 1 + sizeOption n.func + sizeList n.args +
        sizeOption n.type := by
      obtain ⟨info, kind, func, args, type⟩ := n
      rw [size]
    have hbelow : 3 * (sizeOption n.func + sizeList n.args) + levels n.kind ≤
        3 * n.size := by omega
    refine .intro hbelow (fun f hf => (hfunc f hf).mono ?_) fun a ha => (hargs a ha).mono ?_
    · rw [Option.mem_def.mp hf, sizeOption]
      omega
    · have := size_le_sizeList ha
      omega

/-! ### One node -/

section OneNode

variable {n n' call last : Node} {depth below : Nat} {front : List Node}

theorem within_ident (text : String) : Within 1 (ident text) :=
  .intro (Nat.le_refl 1) (fun f hf => by cases hf) fun a ha => by cases ha

theorem levels_of_isBlock (h : n.isBlock = true) : levels n.kind = 1 := by
  rw [isBlock, Bool.or_eq_true, beq_iff_eq, beq_iff_eq] at h
  rcases h with h | h <;> rw [h, levels]

/-- The last statement takes one level more when it is returned. -/
theorem within_returnLast {statements new : List Node} (h : returnLast statements = .ok new)
    (hstatements : ∀ s ∈ statements, Within below s) : ∀ s ∈ new, Within (below + 1) s := by
  rw [returnLast] at h
  split at h
  · cases h
  · next last hlast =>
    have hmem := mem_of_getLast? hlast
    have hpos := (hstatements last hmem).pos
    have hmono : ∀ s ∈ statements, Within (below + 1) s :=
      fun s hs => (hstatements s hs).mono (by omega)
    split at h
    · cases h
      exact hmono
    · split at h
      · cases h
        intro s hs
        rcases mem_append.mp hs with hs | hs
        · exact hmono s hs
        · rw [mem_singleton.mp hs]
          exact (within_ident "return").mono (by omega)
      · cases h
        intro s hs
        rcases mem_append.mp hs with hs | hs
        · exact hmono s (dropLast_subset _ hs)
        · -- the statement stands behind the word `return`
          rw [mem_singleton.mp hs]
          refine .intro (Nat.le_refl (below + 1)) (fun f hf => by cases hf) fun a ha => ?_
          rcases mem_cons.mp ha with rfl | ha
          · exact (within_ident "return").mono hpos
          · rw [mem_singleton.mp ha]
            exact hstatements last hmem

/-- The last argument takes one level more when it gets a block. -/
theorem blockLast_spec (hargs : call.args = front ++ [last]) :
    (blockLast call).func = call.func ∧ (call.isCall = true → (blockLast call).isCall = true) ∧
      ∃ body, (blockLast call).args = front ++ [body] ∧ body.isBlock = true ∧
        ∀ {below}, Within below last → Within (below + 1) body := by
  have hlast : call.args.getLast? = some last := by simp [hargs]
  rw [blockLast, hlast]
  by_cases hblock : last.isBlock = true
  · dsimp only
    rw [if_pos hblock]
    exact ⟨rfl, id, last, hargs, hblock, fun h => h.mono (by omega)⟩
  · dsimp only
    rw [if_neg hblock]
    exact ⟨rfl, fun _ => rfl, ofBlock [last], by simp [hargs], rfl, Within.ofBlock⟩

/-- A lambda gets at most two levels: a block, and a `return` in it. -/
theorem completeLambda_spec (hargs : call.args = front ++ [last])
    (h : completeLambda call = .ok n') :
    n'.func = call.func ∧ (call.isCall = true → n'.isCall = true) ∧
      ∃ body, n'.args = front ++ [body] ∧
        ∀ {below}, Within below last → Within (below + 2) body := by
  obtain ⟨hfunc, hcall, body, hbody, hblock, hwithin⟩ := blockLast_spec hargs
  have hlast : (blockLast call).args.getLast? = some body := by simp [hbody]
  simp only [completeLambda, hlast] at h
  obtain ⟨statements, hstatements, h⟩ := bind_eq_ok.mp h
  cases h
  refine ⟨hfunc, hcall, { body with args := statements }, by simp [hbody], fun {below} hlast => ?_⟩
  cases hwithin hlast with
  | @intro _ below' _ hbelow hfunc' hargs' =>
    have hlevels := levels_of_isBlock hblock
    have hfunc'' : ∀ f ∈ body.func, Within (below' + 1) f :=
      fun f hf => (hfunc' f hf).mono (by omega)
    refine .intro ?_ hfunc'' (within_returnLast hstatements hargs')
    change below' + 1 + levels body.kind ≤ below + 2
    omega

/-- What the form of a node has in common with the node. -/
structure Reshaped (n n' : Node) : Prop where
  func_eq : n'.func = n.func
  isCall_eq : n'.isCall = n.isCall
  name?_eq : n'.name? = n.name?
  isBlock : n.isBlock = true → n'.isBlock = true
  colon : ∀ {lhs rhs}, IsColon n lhs rhs → IsColon n' lhs rhs
  within : ∀ {depth}, Within (depth + 1) n →
    (∀ f ∈ n'.func, Within depth f) ∧ ∀ a ∈ n'.args, Within depth a

theorem Within.parts (h : Within (depth + 1) n) :
    (∀ f ∈ n.func, Within depth f) ∧ ∀ a ∈ n.args, Within depth a := by
  cases h with
  | intro hbelow hfunc hargs =>
    have := (levels_bounds n.kind).1
    exact ⟨fun f hf => (hfunc f hf).mono (by omega), fun a ha => (hargs a ha).mono (by omega)⟩

theorem reshaped_refl (n : Node) : Reshaped n n :=
  ⟨rfl, rfl, rfl, id, id, Within.parts⟩

theorem kind_of_isCall (h : n.isCall = true) : ∃ oneLiner, n.kind = .call oneLiner := by
  rw [isCall] at h
  split at h
  · exact ⟨_, ‹_›⟩
  · cases h

/-- A call is reshaped if its arguments get at most two levels deeper. -/
theorem reshaped_of_isCall (hcall : n.isCall = true) (hcall' : n'.isCall = true)
    (hfunc : n'.func = n.func)
    (hargs : ∀ below, (∀ a ∈ n.args, Within below a) → ∀ a ∈ n'.args, Within (below + 2) a) :
    Reshaped n n' := by
  obtain ⟨o, ho⟩ := kind_of_isCall hcall
  obtain ⟨o', ho'⟩ := kind_of_isCall hcall'
  refine ⟨hfunc, hcall'.trans hcall.symm, ?_, ?_, ?_, ?_⟩
  · rw [Node.name?, Node.name?, ho, ho']
  · intro h
    rw [isBlock, ho] at h
    cases h
  · intro lhs rhs h
    rw [IsColon, isTyped, isClause, binary?, ho] at h
    cases h.1
  · intro depth h
    cases h with
    | @intro _ below _ hbelow hfunc' hargs' =>
      have hlevels : levels n.kind = 3 := by
        rw [ho]
        rfl
      rw [hlevels] at hbelow
      rw [hfunc]
      exact ⟨fun f hf => (hfunc' f hf).mono (by omega),
        fun a ha => (hargs below hargs' a ha).mono (by omega)⟩

theorem reshaped_of_last {body : Node} (hcall : n.isCall = true)
    (hcall' : n.isCall = true → n'.isCall = true) (hfunc : n'.func = n.func)
    (hargs : n.args = front ++ [last]) (hargs' : n'.args = front ++ [body])
    (hbody : ∀ {below}, Within below last → Within (below + 2) body) : Reshaped n n' := by
  refine reshaped_of_isCall hcall (hcall' hcall) hfunc fun below hbelow a ha => ?_
  rw [hargs'] at ha
  rcases mem_append.mp ha with ha | ha
  · exact (hbelow a (by simp [hargs, ha])).mono (by omega)
  · rw [mem_singleton.mp ha]
    exact hbody (hbelow last (by simp [hargs]))

theorem clauseForm_of_isCall (h : n.isCall = true) : clauseForm n = n := by
  obtain ⟨info, kind, func, args, type⟩ := n
  cases kind with
  | call oneLiner => rfl
  | _ => cases h

/-- Bringing a clause into its form reshapes it. -/
theorem reshaped_clauseForm (n : Node) : Reshaped n (clauseForm n) := by
  obtain ⟨info, kind, func, args, type⟩ := n
  cases kind with
  | binary cls op =>
    cases cls with
    | typed =>
      rw [clauseForm]
      dsimp only
      split
      · exact ⟨rfl, rfl, rfl, id, fun h => ⟨rfl, h.2⟩, Within.parts⟩
      · exact reshaped_refl _
    | _ => exact reshaped_refl _
  | unary op =>
    by_cases hop : op = "return"
    · -- the word is a new argument, and a leaf
      subst hop
      refine ⟨rfl, rfl, rfl, fun h => (by cases h), fun h => (by cases h.1), fun {depth} h => ?_⟩
      cases h with
      | intro hbelow hfunc hargs =>
        change _ + 3 ≤ depth + 1 at hbelow
        refine ⟨fun f hf => (hfunc f hf).mono (by omega), fun a ha => ?_⟩
        rcases mem_cons.mp ha with rfl | ha
        · exact .intro (show 0 + 1 ≤ depth by omega) (fun f hf => by cases hf)
            fun a ha => by cases ha
        · exact (hargs a ha).mono (by omega)
    · have heq : clauseForm ⟨info, .unary op, func, args, type⟩ =
          ⟨info, .unary op, func, args, type⟩ := by
        simp [clauseForm, hop]
      rw [heq]
      exact reshaped_refl _
  | _ => exact reshaped_refl _

/-- What the form of a node has in common with the node, whatever the form is. -/
theorem reshaped_expandBody (h : expandBody n = .ok n') : Reshaped n n' := by
  by_cases hcall : n.isCall = true
  · rw [expandBody, clauseForm_of_isCall hcall] at h
    simp only [hcall, Bool.not_true, Bool.false_eq_true, if_false] at h
    have hsame : Reshaped n n := reshaped_refl n
    split at h
    · -- a definition
      split at h
      · cases h
      · cases h
        exact hsame
    split at h
    · -- a lambda
      split at h
      · cases h
      · next hargs =>
        obtain ⟨front, last, hargs⟩ : ∃ front last, n.args = front ++ [last] :=
          ⟨_, _, (dropLast_append_getLast (by simpa using hargs)).symm⟩
        obtain ⟨hfunc, hcall', body, hbody, hwithin⟩ := completeLambda_spec hargs h
        exact reshaped_of_last hcall hcall' hfunc hargs hbody hwithin
    split at h
    · -- an `if`
      next hif =>
      have hfuel := openBranches_le n.args
      rcases normalizeIf_cases hcall (Nat.lt_succ_of_le hfuel) with
        ⟨m, k, b, hrun, hm, -⟩ | ⟨e, hrun, -, -⟩
      · cases hrun.symm.trans h
        refine reshaped_of_isCall hcall (hm.isCall.trans hcall) hm.func_eq fun below hbelow a ha => ?_
        exact (hm.kept _ (Within.kept below) hbelow a ha).mono (by omega)
      · cases hrun.symm.trans h
    split at h
    · -- `requires`
      split at h
      · cases h
      · next hargs =>
        cases h
        obtain ⟨front, last, hargs⟩ : ∃ front last, n.args = front ++ [last] :=
          ⟨_, _, (dropLast_append_getLast (by simpa using hargs)).symm⟩
        obtain ⟨hfunc, hcall', body, hbody, -, hwithin⟩ := blockLast_spec hargs
        exact reshaped_of_last hcall hcall' hfunc hargs hbody
          fun hlast => (hwithin hlast).mono (by omega)
    · cases h
      exact hsame
  · have hform := reshaped_clauseForm n
    rw [expandBody] at h
    simp only [hform.isCall_eq, hcall, Bool.not_false, if_true] at h
    cases h
    exact hform

end OneNode

/-! ### The whole program -/

/-- The node stands in the tree, outside macro definitions. -/
inductive Outside : (tree : Node) → Node → Prop
  | self {n : Node} (hdef : n.isCallOf "defmacro" = false) : Outside n n
  | func {n f m : Node} (hdef : n.isCallOf "defmacro" = false) (hf : f ∈ n.func)
      (hm : Outside f m) : Outside n m
  | arg {n a m : Node} (hdef : n.isCallOf "defmacro" = false) (ha : a ∈ n.args)
      (hm : Outside a m) : Outside n m

/-- What the pass makes of a node: the form of the node, with what it makes of the parts. -/
theorem expandBodiesTo_cases {depth : Nat} {n m : Node} (h : expandBodiesTo (depth + 1) n = .ok m) :
    (n.isCallOf "defmacro" = true ∧ m = n) ∨ ∃ n' args func, expandBody n = .ok n' ∧
      List.Forall₂ (fun a a' => expandBodiesTo depth a = .ok a') n'.args args ∧
      n'.func.mapM (expandBodiesTo depth) = .ok func ∧ m = { n' with args, func } := by
  rw [expandBodiesTo] at h
  split at h
  · next hdef =>
    cases h
    exact .inl ⟨hdef, rfl⟩
  · obtain ⟨n', hn', h⟩ := bind_eq_ok.mp h
    obtain ⟨args, hargs, h⟩ := bind_eq_ok.mp h
    obtain ⟨func, hfunc, h⟩ := bind_eq_ok.mp h
    cases h
    exact .inr ⟨n', args, func, hn', mapM_eq_ok.mp hargs, hfunc, rfl⟩

section Parts

variable {depth : Nat} {n m lhs rhs : Node}

theorem name?_expandBodiesTo (h : expandBodiesTo depth n = .ok m) : m.name? = n.name? := by
  cases depth with
  | zero =>
    cases h
    rfl
  | succ depth =>
    obtain ⟨-, rfl⟩ | ⟨n', args, func, hn', -, -, rfl⟩ := expandBodiesTo_cases h
    · rfl
    · exact (reshaped_expandBody hn').name?_eq

theorem isNamed_expandBodiesTo {text : String} (h : expandBodiesTo depth n = .ok m)
    (hn : n.isNamed text = true) : m.isNamed text = true := by
  rwa [isNamed, name?_expandBodiesTo h]

theorem isBlock_expandBodiesTo (h : expandBodiesTo depth n = .ok m) (hn : n.isBlock = true) :
    m.isBlock = true := by
  cases depth with
  | zero =>
    cases h
    exact hn
  | succ depth =>
    obtain ⟨-, rfl⟩ | ⟨n', args, func, hn', -, -, rfl⟩ := expandBodiesTo_cases h
    · exact hn
    · exact (reshaped_expandBody hn').isBlock hn

theorem isColon_expandBodiesTo (h : expandBodiesTo depth n = .ok m) (hn : IsColon n lhs rhs) :
    ∃ lhs' rhs', IsColon m lhs' rhs' ∧ lhs'.name? = lhs.name? := by
  cases depth with
  | zero =>
    cases h
    exact ⟨lhs, rhs, hn, rfl⟩
  | succ depth =>
    obtain ⟨-, rfl⟩ | ⟨n', args, func, hn', hargs, -, rfl⟩ := expandBodiesTo_cases h
    · exact ⟨lhs, rhs, hn, rfl⟩
    · obtain ⟨htyped, hoperands⟩ := (reshaped_expandBody hn').colon hn
      rw [hoperands] at hargs
      obtain _ | ⟨hlhs, _ | ⟨hrhs, ⟨⟩⟩⟩ := hargs
      exact ⟨_, _, ⟨htyped, rfl⟩, name?_expandBodiesTo hlhs⟩

theorem WrittenFurther.expandBodiesTo (h : WrittenFurther inline b args) (hblocks : inline = 0)
    (hargs : List.Forall₂ (fun a a' => Analysis.expandBodiesTo depth a = .ok a') args args') :
    ∃ b', WrittenFurther 0 b' args' := by
  induction h generalizing args' with
  | nil =>
    cases hargs
    exact ⟨_, .nil⟩
  | elif hhead hword hblock _ ih =>
    obtain _ | ⟨ha, _ | ⟨hb, hargs⟩⟩ := hargs
    obtain ⟨b', hrest⟩ := ih hblocks hargs
    obtain ⟨word', condition', hhead', hname⟩ := isColon_expandBodiesTo ha hhead
    have hword' : word'.isNamed "elif" = true := by rwa [isNamed, hname]
    exact ⟨_, .elif hhead' hword' (isBlock_expandBodiesTo hb hblock) hrest⟩
  | elifInline _ _ _ _ => omega
  | otherwise hword hblock =>
    obtain _ | ⟨ha, _ | ⟨hb, ⟨⟩⟩⟩ := hargs
    exact ⟨_, .otherwise (isNamed_expandBodiesTo ha hword) (isBlock_expandBodiesTo hb hblock)⟩
  | otherwiseInline _ _ => omega

theorem Written.expandBodiesTo {b : Branching} (h : Written 0 b args)
    (hargs : List.Forall₂ (fun a a' => Analysis.expandBodiesTo depth a = .ok a') args args') :
    ∃ b', Written 0 b' args' := by
  cases h with
  | block hbody hrest =>
    obtain _ | ⟨ha, _ | ⟨hb, hargs⟩⟩ := hargs
    obtain ⟨⟨elifs, otherwise⟩, hrest'⟩ := hrest.expandBodiesTo rfl hargs
    exact ⟨_, .block (isBlock_expandBodiesTo hb hbody) hrest'⟩

end Parts

/-- Every `if` that the pass has gone through, outside macro definitions, has blocks only. -/
theorem exists_written_of_within {depth : Nat} {n m call : Node} (hdepth : Within depth n)
    (h : expandBodiesTo depth n = .ok m) (hcall : Outside m call)
    (hif : call.isCallOf "if" = true) : ∃ b, Written 0 b call.args := by
  induction depth generalizing n m with
  | zero => exact absurd hdepth.pos (Nat.lt_irrefl 0)
  | succ depth ih =>
    obtain ⟨hdef, rfl⟩ | ⟨n', args, func, hn', hargs, hfunc, rfl⟩ := expandBodiesTo_cases h
    · -- nothing stands outside the macro definition
      cases hcall with
      | self hdef' | func hdef' _ _ | arg hdef' _ _ => cases hdef.symm.trans hdef'
    have hshape := reshaped_expandBody hn'
    obtain ⟨hwithinFunc, hwithinArgs⟩ := hshape.within hdepth
    cases hcall with
    | self =>
      have hname : func.bind Node.name? = n'.func.bind Node.name? := by
        obtain ⟨h₁, h₂⟩ | ⟨f, f', h₁, h₂, hf⟩ := mapMOption_eq_ok hfunc
        · rw [h₁, h₂]
        · rw [h₁, h₂]
          exact name?_expandBodiesTo hf
      have hif' : n.isCallOf "if" = true := by
        rw [isCallOf, ← hshape.isCall_eq, funcName?, ← hshape.func_eq, ← hname]
        exact hif
      have hcall' : n.isCall = true := (Bool.and_eq_true_iff.mp hif').1
      rw [expandBody_if hif'] at hn'
      rcases normalizeIf_cases hcall' (Nat.lt_succ_of_le (openBranches_le n.args)) with
        ⟨settled, k, b, hrun, hsettled, -⟩ | ⟨e, hrun, -, -⟩
      · cases hrun.symm.trans hn'
        exact hsettled.written.expandBodiesTo hargs
      · cases hrun.symm.trans hn'
    | func _ hf hm =>
      obtain ⟨-, h₂⟩ | ⟨f, f', h₁, h₂, hf'⟩ := mapMOption_eq_ok hfunc
      · cases h₂ ▸ hf
      · obtain rfl : f' = _ := by simpa [h₂] using hf
        exact ih (hwithinFunc f (by simp [h₁])) hf' hm
    | arg _ ha hm =>
      obtain ⟨a, ha', hrun⟩ := exists_mem_of_forall₂ hargs ha
      exact ih (hwithinArgs a ha') hrun hm

/-- An `if` call has one of two ends, which what its arguments say decides. -/
theorem expandBody_if_cases {call : Node} (hif : call.isCallOf "if" = true) :
    (∃ m k b, expandBody call = .ok m ∧ Settled call m b ∧
      ∀ inline b', Written inline b' call.args ↔ inline = k ∧ b' = b) ∨
    (∃ e, expandBody call = .error e ∧
      ((∀ a ∈ call.args, AsWritten a) → ∃ fault, e = .analysis fault none) ∧
        ∀ inline b, ¬Written inline b call.args) := by
  have hcall : call.isCall = true := (Bool.and_eq_true_iff.mp hif).1
  rw [expandBody_if hif]
  exact normalizeIf_cases hcall (Nat.lt_succ_of_le (openBranches_le call.args))

/-- **Branches get blocks.**

    * An `if` whose arguments write branches, with any of the bodies inline, becomes an `if` that no
      step changes and that writes the same branches with blocks only.  Its arguments depend on the
      conditions and the statements alone, and they are taken apart into these.
    * An `if` whose arguments write no branches is refused.
    * In a program that went through the pass, every `if` outside macro definitions can be taken
      apart. -/
theorem branches_get_blocks :
    (∀ (call : Node) (inline : Nat) (b : Branching), call.isCallOf "if" = true →
      Written inline b call.args → ∃ m, expandBody call = .ok m ∧ Branch.step m = .ok none ∧
        Written 0 b m.args ∧
        ((∀ a ∈ call.args, AsWritten a) → List.Forall₂ Same m.args b.arguments) ∧
        ∃ branches, Branches.ofArgs? m.args = some branches ∧ Branching.ofBranches branches = b) ∧
    (∀ call : Node, call.isCallOf "if" = true → (∀ a ∈ call.args, AsWritten a) →
      (¬∃ inline b, Written inline b call.args) →
        ∃ fault, expandBody call = .error (.analysis fault none)) ∧
    ∀ tree m call : Node, expandBodies tree = .ok m → Outside m call →
      call.isCallOf "if" = true → ∃ branches, Branches.ofArgs? call.args = some branches := by
  refine ⟨fun call inline b hif hwritten => ?_, fun call hif hargs hnone => ?_,
    fun tree m call h hcall hif => ?_⟩
  · obtain ⟨m, k, b', hm, hsettled, hiff⟩ | ⟨e, -, -, hnone⟩ := expandBody_if_cases hif
    · obtain ⟨rfl, rfl⟩ := (hiff inline b).mp hwritten
      refine ⟨m, hm, hsettled.step_eq, hsettled.written, fun hargs => ?_,
        exists_branches hsettled.written⟩
      exact hsettled.written.same_arguments (hsettled.kept _ kept_asWritten hargs)
    · exact absurd hwritten (hnone inline b)
  · obtain ⟨m, k, b, -, -, hiff⟩ | ⟨e, he, hfault, -⟩ := expandBody_if_cases hif
    · exact absurd ⟨k, b, (hiff k b).mpr ⟨rfl, rfl⟩⟩ hnone
    · obtain ⟨fault, rfl⟩ := hfault hargs
      exact ⟨fault, he⟩
  · have hdepth : Within (3 * tree.size + 3) tree := (within_size tree).mono (by omega)
    obtain ⟨b, hb⟩ := exists_written_of_within hdepth h hcall hif
    obtain ⟨branches, hbranches, -⟩ := exists_branches hb
    exact ⟨branches, hbranches⟩

/-- `if (a: x, elif: b: y, else:` with a block that holds `z`. -/
def sampleIf : Node :=
  Node.ofCall (Node.ident "if")
    [Node.ofBinary .typed ":" (Node.ident "a") (Node.ident "x"),
      Node.ofBinary .typed ":" (Node.ident "elif")
        (Node.ofBinary .typed ":" (Node.ident "b") (Node.ident "y")),
      Node.ident "else", Node.ofBlock [Node.ident "z"]]

def sampleBranching : Branching where
  condition := Node.ident "a"
  body := [Node.ident "x"]
  elifs := [(Node.ident "b", [Node.ident "y"])]
  otherwise := some [Node.ident "z"]

theorem written_sampleIf : Written 2 sampleBranching sampleIf.args := by
  have hlast : WrittenFurther 0 ([], some (ofBlock [ident "z"]).args)
      [ident "else", ofBlock [ident "z"]] := .otherwise rfl rfl
  exact .inline ⟨rfl, rfl⟩ rfl (.elifInline ⟨rfl, rfl⟩ rfl ⟨rfl, rfl⟩ hlast)

theorem asWritten_sampleIf : ∀ a ∈ sampleIf.args, AsWritten a := by
  have hname : ∀ {text}, text ≠ "" → AsWritten (ident text) := AsWritten.ident
  simp only [sampleIf, ofCall, make, forall_mem_cons]
  refine ⟨.ofColon (hname (by decide)) (hname (by decide)), ?_, hname (by decide),
    (hname (by decide)).ofBlock, by simp⟩
  exact .ofColon (hname (by decide)) (.ofColon (hname (by decide)) (hname (by decide)))

theorem branches_of_sampleIf :
    Written 2 sampleBranching sampleIf.args ∧
    (∃ m, expandBody sampleIf = .ok m ∧ Written 0 sampleBranching m.args ∧
      List.Forall₂ Same m.args sampleBranching.arguments) ∧
    (∃ fault, expandBody (Node.ofCall (Node.ident "if") [Node.ident "a"]) =
      .error (.analysis fault none)) ∧
    ∃ m call, expandBodies (Node.ofModule [sampleIf]) = .ok m ∧ Outside m call ∧
      call.isCallOf "if" = true ∧ ∃ branches, Branches.ofArgs? call.args = some branches := by
  obtain ⟨hblocks, hrefused, hprogram⟩ := branches_get_blocks
  refine ⟨written_sampleIf, ?_, ?_, ?_⟩
  · obtain ⟨m, hm, -, hwritten, hsame, -⟩ := hblocks sampleIf 2 sampleBranching rfl written_sampleIf
    exact ⟨m, hm, hwritten, hsame asWritten_sampleIf⟩
  · refine hrefused _ rfl ?_ ?_
    · exact List.forall_mem_cons.mpr ⟨.ident (by decide), by simp⟩
    · -- a name alone is no branch
      rintro ⟨_, _, h⟩
      cases h with
      | inline hfirst _ _ => cases hfirst.1
  · have hrun : ∃ call, expandBodies (Node.ofModule [sampleIf]) =
        .ok (Node.ofModule [call]) ∧ call.isCallOf "if" = true := ⟨_, rfl, rfl⟩
    obtain ⟨call, hm, hif⟩ := hrun
    have hdef : call.isCallOf "defmacro" = false := by
      rw [Node.isCallOf, Bool.and_eq_true, beq_iff_eq] at hif
      rw [Node.isCallOf, hif.2, Bool.and_eq_false_iff]
      exact .inr rfl
    have hcall : Outside (Node.ofModule [call]) call :=
      .arg rfl (List.mem_singleton.mpr rfl) (.self hdef)
    exact ⟨_, call, hm, hcall, hif, hprogram _ _ call hm hcall hif⟩

end Cppward.Analysis
