import Cppward.Source.Namespace
import Mathlib.Data.List.Basic

namespace Cppward.Source

open List Node

/-!
# Which statements survive the namespace of a file

The statement `namespace(name)` is meant to move what stands behind it into a block, and to leave
everything else alone.  A call of `namespace` that opens a block of its own is an ordinary
statement.

* `expandNamespace_of_none`, `expandNamespace_of_one`, `expandNamespace_of_two` — what happens to a
  module, by the number of its one-argument calls of `namespace`.
* `Unmixed` — a one-argument call of `namespace` is no anonymous block, and the only call of
  `namespace` in the module.
* `exists_placed_iff` — these are the modules that are placed as meant.
-/

variable {module n name statement : Node} {ns before after : List Node} {p : Placement}

/-- A call of `namespace` with one argument, be it a name or a block. -/
def isShort (n : Node) : Bool := isNamespace n && n.args.length == 1

/-- The namespace statement of a file: its argument is a name, not a block. -/
def isFileNamespace (n : Node) : Bool := isShort n && n.args.all fun a => !a.isBlock

/-- The call that holds the statements of a namespace. -/
def namespaceCall (name : Node) (inside : List Node) : Node :=
  Node.ofCall (Node.ident "namespace") [name, Node.ofBlock inside]

/-- The module that a file stands for.  Every statement but the namespace statement is kept in its
    place or, if it stands behind that statement, in the block of the namespace; without a namespace
    statement nothing changes. -/
inductive Placed (module : Node) : Node → Prop
  | unchanged (hnone : ∀ n ∈ module.args, isFileNamespace n = false) : Placed module module
  | inside {before after : List Node} {statement name : Node}
      (hargs : module.args = before ++ statement :: after)
      (hstatement : isFileNamespace statement = true) (hname : statement.args = [name])
      (hbefore : ∀ n ∈ before, isFileNamespace n = false)
      (hafter : ∀ n ∈ after, isFileNamespace n = false) :
      Placed module (Node.ofModule (before ++ [namespaceCall name after]))

/-! ### One statement -/

theorem isShort_of_isFileNamespace (h : isFileNamespace n = true) : isShort n = true := by
  rw [isFileNamespace, Bool.and_eq_true] at h
  exact h.1

theorem isNamespace_of_isShort (h : isShort n = true) : isNamespace n = true := by
  rw [isShort, Bool.and_eq_true] at h
  exact h.1

theorem args_of_isShort (h : isShort n = true) : ∃ name, n.args = [name] := by
  rw [isShort, Bool.and_eq_true, beq_iff_eq] at h
  exact length_eq_one_iff.mp h.2

/-- The statements that a module keeps are those that do not call `namespace`. -/
def isKept (n : Node) : Bool := !isNamespace n

theorem add_of_isKept (h : isKept n = true) :
    p.add n = .ok (if p.name.isSome then { p with inner := n :: p.inner }
      else { p with outer := n :: p.outer }) := by
  rw [isKept, Bool.not_eq_true'] at h
  rw [Placement.add, h]
  cases hname : p.name.isSome <;> simp

/-- A longer call of `namespace` leaves no trace. -/
theorem add_of_not_isKept (h : isKept n = false) (hshort : isShort n = false) :
    p.add n = .ok p := by
  rw [isKept, Bool.not_eq_false'] at h
  rw [isShort, h, Bool.true_and, beq_eq_false_iff_ne] at hshort
  rw [Placement.add, if_pos h]
  split
  · next name hargs => simp [hargs] at hshort
  · rfl

theorem add_of_isShort (h : isShort statement = true) (hargs : statement.args = [name]) :
    p.add statement =
      if p.name.isSome then .error .secondNamespace else .ok { p with name := some name } := by
  rw [Placement.add, if_pos (isNamespace_of_isShort h), hargs]

/-! ### All statements -/

/-- Without a one-argument call, statements are collected on the side where they stand. -/
theorem foldlM_add_of_none (h : ∀ n ∈ ns, isShort n = false) :
    ns.foldlM Placement.add p =
      .ok (if p.name.isSome then { p with inner := (ns.filter isKept).reverse ++ p.inner }
        else { p with outer := (ns.filter isKept).reverse ++ p.outer }) := by
  induction ns generalizing p with
  | nil => cases p.name.isSome <;> rfl
  | cons n ns ih =>
    have hrest := fun m hm => h m (mem_cons_of_mem n hm)
    rw [foldlM_cons]
    cases hkept : isKept n with
    | true =>
      rw [add_of_isKept hkept]
      show ns.foldlM Placement.add _ = _
      rw [ih hrest]
      cases hname : p.name.isSome <;> simp [hname, hkept]
    | false =>
      rw [add_of_not_isKept hkept (h n mem_cons_self)]
      show ns.foldlM Placement.add p = _
      rw [ih hrest]
      simp [hkept]

/-- A one-argument call where the name is known already is refused. -/
theorem foldlM_add_of_named (hname : p.name.isSome = true) (hn : n ∈ ns)
    (hshort : isShort n = true) :
    ns.foldlM Placement.add p = .error .secondNamespace := by
  induction ns generalizing p with
  | nil => simp at hn
  | cons m ns ih =>
    rw [foldlM_cons]
    cases hm : isShort m with
    | true =>
      obtain ⟨arg, harg⟩ := args_of_isShort hm
      rw [add_of_isShort hm harg, if_pos hname]
      rfl
    | false =>
      have hn' : n ∈ ns := by
        rcases mem_cons.mp hn with rfl | hn
        · rw [hshort] at hm
          cases hm
        · exact hn
      cases hkept : isKept m with
      | true =>
        rw [add_of_isKept hkept, if_pos hname]
        exact ih hname hn'
      | false =>
        rw [add_of_not_isKept hkept hm]
        exact ih hname hn'

/-- Up to the first one-argument call, what is kept stands outside the namespace. -/
theorem foldlM_add_of_first (hshort : isShort statement = true) (hname : statement.args = [name])
    (hbefore : ∀ n ∈ before, isShort n = false) :
    (before ++ statement :: after).foldlM Placement.add {} =
      after.foldlM Placement.add
        { name := some name, outer := (before.filter isKept).reverse } := by
  rw [foldlM_append, foldlM_add_of_none hbefore]
  show (statement :: after).foldlM Placement.add _ = _
  rw [foldlM_cons, add_of_isShort hshort hname]
  show after.foldlM Placement.add _ = _
  simp

theorem expandNamespace_of_none (h : ∀ n ∈ module.args, isShort n = false) :
    expandNamespace module = .ok module := by
  rw [expandNamespace, foldlM_add_of_none h]
  rfl

/-- **What is kept.**  With a single one-argument call, all other calls of `namespace` are lost. -/
theorem expandNamespace_of_one (hargs : module.args = before ++ statement :: after)
    (hshort : isShort statement = true) (hname : statement.args = [name])
    (hbefore : ∀ n ∈ before, isShort n = false) (hafter : ∀ n ∈ after, isShort n = false) :
    expandNamespace module =
      .ok (ofModule (before.filter isKept ++ [namespaceCall name (after.filter isKept)])) := by
  rw [expandNamespace, hargs, foldlM_add_of_first hshort hname hbefore, foldlM_add_of_none hafter]
  simp [namespaceCall, bind, Except.bind, pure, Except.pure]

theorem expandNamespace_of_two (hargs : module.args = before ++ statement :: after)
    (hshort : isShort statement = true) (hbefore : ∀ n ∈ before, isShort n = false)
    (hn : n ∈ after) (hn' : isShort n = true) :
    expandNamespace module = .error .secondNamespace := by
  obtain ⟨name, hname⟩ := args_of_isShort hshort
  rw [expandNamespace, hargs, foldlM_add_of_first hshort hname hbefore,
    foldlM_add_of_named rfl hn hn']
  rfl

/-- What a module becomes is decided by its first one-argument call. -/
theorem expandNamespace_cases {placed : Node} (h : expandNamespace module = .ok placed) :
    (placed = module ∧ ∀ n ∈ module.args, isShort n = false) ∨
      ∃ before statement after name, module.args = before ++ statement :: after ∧
        isShort statement = true ∧ statement.args = [name] ∧
        placed = ofModule
          (before.filter isKept ++ [namespaceCall name (after.filter isKept)]) := by
  cases hfilter : module.args.filter isShort with
  | nil =>
    have hnone : ∀ n ∈ module.args, isShort n = false := fun n hn =>
      Bool.eq_false_iff.mpr (filter_eq_nil_iff.mp hfilter n hn)
    rw [expandNamespace_of_none hnone, Except.ok.injEq] at h
    exact .inl ⟨h.symm, hnone⟩
  | cons statement rest =>
    obtain ⟨before, after, hargs, hbefore, hshort, -⟩ := filter_eq_cons_iff.mp hfilter
    simp only [Bool.not_eq_true] at hbefore
    have hafter : ∀ n ∈ after, isShort n = false := by
      intro n hn
      by_contra hn'
      rw [Bool.not_eq_false] at hn'
      rw [expandNamespace_of_two hargs hshort hbefore hn hn'] at h
      cases h
    obtain ⟨name, hname⟩ := args_of_isShort hshort
    rw [expandNamespace_of_one hargs hshort hname hbefore hafter, Except.ok.injEq] at h
    exact .inr ⟨before, statement, after, name, hargs, hshort, hname, h.symm⟩

/-! ### Placement as meant -/

theorem isFileNamespace_of_isShort_eq_false (h : isShort n = false) :
    isFileNamespace n = false := by
  rw [isFileNamespace, h, Bool.false_and]

theorem isShort_of_isKept (h : isKept n = true) : isShort n = false := by
  rw [isKept, Bool.not_eq_true'] at h
  rw [isShort, h, Bool.false_and]

/-- Nothing that a module with a namespace holds has the form that asks for one. -/
theorem isShort_eq_false_of_mem
    (h : n ∈ before.filter isKept ++ [namespaceCall name after]) : isShort n = false := by
  rcases mem_append.mp h with h | h
  · exact isShort_of_isKept (mem_filter.mp h).2
  · rw [mem_singleton.mp h]
    simp [isShort, namespaceCall, ofCall, make]

/-- No call of `namespace` asks for a namespace, or the only one is a namespace statement. -/
def Unmixed (module : Node) : Prop :=
  (∀ n ∈ module.args, isShort n = false) ∨
    ∃ statement, module.args.filter isNamespace = [statement] ∧ isFileNamespace statement = true

/-- What is placed as meant has lost no call of `namespace`. -/
theorem unmixed_of_placed {placed : Node} (hplaced : expandNamespace module = .ok placed)
    (hmeant : Placed module placed) : Unmixed module := by
  rcases expandNamespace_cases hplaced with
    ⟨-, hnone⟩ | ⟨before, first, after, name, hargs, hfirst, -, hplaced⟩
  · exact .inl hnone
  right
  cases hmeant with
  | unchanged hnone =>
    -- the call that was taken for a namespace statement would still be there
    have hmem : first ∈ module.args := hargs ▸ mem_append_right before mem_cons_self
    rw [hplaced] at hmem
    rw [isShort_eq_false_of_mem hmem] at hfirst
    cases hfirst
  | @inside before' after' statement name' hargs' hstatement hname' _ _ =>
    -- what is kept is all there was, so no other call of `namespace` was dropped
    obtain ⟨hb, hc⟩ := append_inj' (congrArg Node.args hplaced.symm) rfl
    have ha : after.filter isKept = after' := by
      simp only [namespaceCall, ofCall, ofBlock, make, List.cons.injEq,
        Node.mk.injEq] at hc
      simp_all
    refine ⟨statement, ?_, hstatement⟩
    have hkept : ∀ ns : List Node, (ns.filter isKept).filter isNamespace = [] := by
      intro ns
      rw [filter_filter, filter_eq_nil_iff]
      simp [isKept]
    rw [hargs', ← hb, ← ha, filter_append, filter_cons, hkept, hkept,
      if_pos (isNamespace_of_isShort (isShort_of_isFileNamespace hstatement))]
    rfl

/-- A module with at most a namespace statement is placed as meant. -/
theorem placed_of_unmixed (h : Unmixed module) :
    ∃ placed, expandNamespace module = .ok placed ∧ Placed module placed := by
  rcases h with hnone | ⟨statement, hfilter, hstatement⟩
  · refine ⟨module, expandNamespace_of_none hnone, .unchanged fun n hn => ?_⟩
    exact isFileNamespace_of_isShort_eq_false (hnone n hn)
  · obtain ⟨before, after, hargs, hbefore, -, hafter⟩ := filter_eq_cons_iff.mp hfilter
    rw [filter_eq_nil_iff] at hafter
    have hkept : ∀ ns : List Node, (∀ n ∈ ns, ¬isNamespace n = true) →
        (∀ n ∈ ns, isShort n = false) ∧ ns.filter isKept = ns := by
      intro ns hns
      refine ⟨fun n hn => isShort_of_isKept ?_, filter_eq_self.mpr fun n hn => ?_⟩ <;>
        simpa [isKept] using hns n hn
    obtain ⟨hshort, hbefore'⟩ := hkept before hbefore
    obtain ⟨hshort', hafter'⟩ := hkept after hafter
    have hone := isShort_of_isFileNamespace hstatement
    obtain ⟨name, hname⟩ := args_of_isShort hone
    refine ⟨_, expandNamespace_of_one hargs hone hname hshort hshort', ?_⟩
    rw [hbefore', hafter']
    exact .inside hargs hstatement hname
      (fun n hn => isFileNamespace_of_isShort_eq_false (hshort n hn))
      (fun n hn => isFileNamespace_of_isShort_eq_false (hshort' n hn))

/-- **Namespaces are not mixed.**  A module is placed as meant exactly when it has no one-argument
    call of `namespace`, or its only call of `namespace` is a namespace statement.  Otherwise a
    namespace block is lost, an anonymous block is taken for a name, or the module is refused. -/
theorem exists_placed_iff (module : Node) :
    (∃ placed, expandNamespace module = .ok placed ∧ Placed module placed) ↔ Unmixed module := by
  constructor
  · rintro ⟨placed, hplaced, hmeant⟩
    exact unmixed_of_placed hplaced hmeant
  · exact placed_of_unmixed

def namespaceSample (args : List Node) : Node := Node.ofCall (Node.ident "namespace") args

def assignSample (name digits : String) : Node :=
  Node.ofBinary .assign "=" (Node.ident name) (Node.ofDigits digits)

/-- A file in the namespace `project`, with a block for the namespace `detail` and a statement. -/
def mixedModule : Node :=
  Node.ofModule [namespaceSample [Node.ident "project"],
    namespaceSample [Node.ident "detail", Node.ofBlock [assignSample "x" "1"]],
    assignSample "y" "2"]

/-- A file with an anonymous namespace and a statement. -/
def anonymousModule : Node :=
  Node.ofModule [namespaceSample [Node.ofBlock [assignSample "x" "1"]], assignSample "y" "2"]

/-- The block of `detail` is lost, and the anonymous namespace swallows the statement behind it. -/
theorem not_placed_samples :
    (¬∃ placed, expandNamespace mixedModule = .ok placed ∧ Placed mixedModule placed) ∧
      ¬∃ placed, expandNamespace anonymousModule = .ok placed ∧ Placed anonymousModule placed := by
  constructor
  · rintro ⟨placed, hplaced, hmeant⟩
    rcases unmixed_of_placed hplaced hmeant with hnone | ⟨statement, hfilter, -⟩
    · exact absurd (hnone _ (List.mem_cons_self)) (by decide)
    · have htwo : (mixedModule.args.filter isNamespace).length = 2 := by decide
      rw [hfilter] at htwo
      cases htwo
  · rintro ⟨placed, hplaced, hmeant⟩
    rcases unmixed_of_placed hplaced hmeant with hnone | ⟨statement, hfilter, hstatement⟩
    · exact absurd (hnone _ (List.mem_cons_self)) (by decide)
    · have hone : anonymousModule.args.filter isNamespace =
          [namespaceSample [Node.ofBlock [assignSample "x" "1"]]] := rfl
      rw [hfilter, List.singleton_inj] at hone
      rw [hone] at hstatement
      exact absurd hstatement (by decide)

end Cppward.Source
