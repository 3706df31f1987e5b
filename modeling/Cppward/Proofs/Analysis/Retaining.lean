import Cppward.Proofs.Analysis.Invariant
import Cppward.Proofs.Analysis.Specifiers

namespace Cppward.Analysis

open Node Stateful List
open Option (mem_toList mem_def)

/-!
# Declared types in analysed programs

Types are recorded twice: in the tree as it was read, and after the safety checks, which build new
colons.  In between, a container is wrapped as it stands, and the branch that is made of `unsafe(...)`
takes over the statements, but not the call, its word or the block around the statements.

* `Recorded` — trees whose types have been recorded.
* `Lossless` — trees in which nothing that branches leave out has a type.
* `respected_retained` — the checks keep all types of such trees.
* `specifiers_retained` — what becomes of the colons of a module.
-/

variable {func : Option Node} {loc : Nat} {lhs container s arg a : Node}

/-! ### Labels of evaluated nodes -/

section Labels

variable {n x y : Node}

theorem label_mem_evaluated (h : a ∈ n.evaluated) (next : Nat) :
    ∃ k, (a.label k).1 ∈ (n.label next).1.evaluated := by
  obtain ⟨hfunc, hargs, _⟩ := label_mem_fields n next
  rcases mem_append.mp h with ha | ha
  · obtain ⟨k, hk⟩ := hfunc a (mem_toList.mp ha)
    exact ⟨k, mem_append_left _ (mem_toList.mpr hk)⟩
  · obtain ⟨k, hk⟩ := hargs a ha
    exact ⟨k, mem_append_right _ hk⟩

/-- What is evaluated in a tree is found, labelled, in the labelled tree. -/
theorem exists_label_evaluatedIn (h : EvaluatedIn y n) :
    ∀ next, ∃ k, EvaluatedIn (y.label k).1 (n.label next).1 := by
  induction h with
  | self => exact fun next => ⟨next, .self⟩
  | @part n a ha _ ih =>
    intro next
    obtain ⟨k, hk⟩ := label_mem_evaluated ha next
    obtain ⟨k', hk'⟩ := ih k
    exact ⟨k', .part hk hk'⟩

theorem evaluatedIn_label (h : EvaluatedIn y n) (hne : ∀ m ∈ y.walk, m.id ≠ 0) (next : Nat) :
    EvaluatedIn y (n.label next).1 := by
  obtain ⟨k, hk⟩ := exists_label_evaluatedIn h next
  rwa [label_eq_self hne] at hk

theorem exists_label_mem_walk (h : x ∈ n.walk) : ∀ next, ∃ k, (x.label k).1 ∈ (n.label next).1.walk := by
  induction n using partsInduction with
  | step n ih =>
    intro next
    rw [walk_eq] at h
    rcases mem_cons.mp h with rfl | h
    · exact ⟨next, self_mem_walk _⟩
    · obtain ⟨a, ha, h⟩ := mem_flatMap.mp h
      have hpart : ∃ k, (a.label k).1 ∈ (n.label next).1.parts := by
        rcases mem_append.mp ha with ha | ha
        · obtain ⟨k, hk⟩ := label_mem_evaluated ha next
          exact ⟨k, mem_parts_of_mem_evaluated hk⟩
        · obtain ⟨k, hk⟩ := (label_mem_fields n next).2.2 a (mem_toList.mp ha)
          exact ⟨k, type_mem_parts hk⟩
      obtain ⟨k, hk⟩ := hpart
      obtain ⟨k', hk'⟩ := ih a ha h k
      exact ⟨k', mem_walk_of_mem_parts hk hk'⟩

/-- A node of a tree is evaluated in it, or it is in the declared type of a node that is. -/
theorem evaluated_or_typed (h : x ∈ n.walk) :
    EvaluatedIn x n ∨ ∃ y, EvaluatedIn y n ∧ ∃ t ∈ y.type, x ∈ t.walk := by
  induction n using partsInduction with
  | step n ih =>
    rw [walk_eq] at h
    rcases mem_cons.mp h with rfl | h
    · exact .inl .self
    · obtain ⟨a, ha, h⟩ := mem_flatMap.mp h
      rcases mem_append.mp ha with hevaluated | htype
      · rcases ih a ha h with hx | ⟨y, hy, ht⟩
        · exact .inl (.part hevaluated hx)
        · exact .inr ⟨y, .part hevaluated hy, ht⟩
      · exact .inr ⟨n, .self, a, mem_toList.mp htype, h⟩

end Labels

/-! ### Trees whose types have been recorded -/

/-- No colon is evaluated in the tree, and the declared types are resolved. -/
def Recorded (n : Node) : Prop :=
  ∀ y, EvaluatedIn y n → y.binary? ≠ some .typed ∧ ∀ t ∈ y.type, Resolved t

section Recorded

variable {n : Node}

theorem forall_evaluatedIn_iff {P : Node → Prop} : (∀ y, EvaluatedIn y n → P y) ↔
    P n ∧ ∀ a ∈ n.evaluated, ∀ y, EvaluatedIn y a → P y := by
  constructor
  · exact fun h => ⟨h n .self, fun a ha y hy => h y (.part ha hy)⟩
  · rintro ⟨hself, hparts⟩ y hy
    rcases evaluatedIn_iff.mp hy with rfl | ⟨a, ha, hy⟩
    · exact hself
    · exact hparts a ha y hy

theorem recorded_iff : Recorded n ↔
    (n.binary? ≠ some .typed ∧ ∀ t ∈ n.type, Resolved t) ∧ ∀ a ∈ n.evaluated, Recorded a :=
  forall_evaluatedIn_iff

theorem Recorded.part (h : Recorded n) {a : Node} (ha : a ∈ n.evaluated) : Recorded a :=
  (recorded_iff.mp h).2 a ha

theorem Resolved.recorded (h : Resolved n) (hcolon : n.binary? ≠ some .typed) : Recorded n := by
  induction n using evaluatedInduction with
  | step n ih =>
    obtain ⟨hevaluated, hparts⟩ := resolved_iff.mp h
    refine recorded_iff.mpr ⟨⟨hcolon, fun t ht => hparts t (type_mem_parts ht)⟩, fun a ha => ?_⟩
    exact ih a ha (hparts a (mem_parts_of_mem_evaluated ha)) (hevaluated hcolon a ha)

theorem Recorded.ready (h : Recorded n) : Ready n := by
  induction n using evaluatedInduction with
  | step n ih =>
    obtain ⟨⟨hcolon, htype⟩, hparts⟩ := recorded_iff.mp h
    refine .plain hcolon htype fun a ha => ?_
    rw [expressions_of_ne hcolon] at ha
    exact ih a ha (hparts a ha)

theorem Recorded.copy (h : Recorded n) : Recorded n.copy := by
  induction n using evaluatedInduction with
  | step n ih =>
    obtain ⟨⟨hcolon, _⟩, hparts⟩ := recorded_iff.mp h
    rw [copy_eq]
    split
    · exact h
    · refine recorded_iff.mpr ⟨⟨?_, fun t ht => by cases ht⟩, fun a ha => ?_⟩
      · rw [binary?] at hcolon ⊢
        cases hkind : n.kind with
        | binary cls op => cases cls <;> simp_all [Kind.unmarked]
        | _ => simp [Kind.unmarked]
      · simp only [evaluated, mem_append, mem_toList, Option.map_eq_some_iff,
          mem_map] at ha
        rcases ha with ⟨f, hf, rfl⟩ | ⟨b, hb, rfl⟩
        · exact ih f (mem_append_left _ (mem_toList.mpr hf))
            (hparts f (mem_append_left _ (mem_toList.mpr hf)))
        · exact ih b (mem_append_right _ hb) (hparts b (mem_append_right _ hb))

theorem anonymous_unlabel (n : Node) : n.unlabel.anonymous = n.anonymous := by
  induction n using Node.induction with
  | step n ihfunc ihargs _ =>
    rw [unlabel_eq, anonymous_eq, anonymous_eq n]
    simp only [Option.map_map, map_map]
    congr 1
    · exact Option.map_congr ihfunc
    · exact map_congr_left ihargs

end Recorded

/-! ### Built trees -/

section Built

theorem ready_make {kind : Kind} {args : List Node}
    (h : ∀ op, kind ≠ .binary .typed op) : Ready (make kind func args loc) ↔
      (∀ f ∈ func, Ready f) ∧ ∀ a ∈ args, Ready a := by
  have hcolon : (make kind func args loc).binary? ≠ some .typed := by
    rw [binary?_make]
    cases kind <;> simp_all
  have hexpressions : expressions (make kind func args loc) = func.toList ++ args :=
    expressions_of_ne hcolon
  have htype : (make kind func args loc).type = none := rfl
  rw [ready_iff, hexpressions]
  simp [hcolon, htype, or_imp, forall_and]

theorem ready_unsafeBranch {statements : List Node} (h : ∀ a ∈ statements, Ready a) :
    Ready (unsafeBranch statements) := by
  simpa [unsafeBranch, ofCall, ofBlock, ofDigits, ident, ready_make] using h

theorem ready_colon {type : Node} (hlhs : Ready lhs) (hcolon : lhs.binary? ≠ some .typed)
    (hnone : lhs.type = none) (hready : Ready type) (htyped : type.isTyped = false)
    (htype : Untyped type) : Ready (ofBinary .typed ":" lhs type) := by
  have hspecifiers : [type].flatMap specifiers = [type] := by
    rw [flatMap_singleton, specifiers_of_not htyped, htype type type.self_mem_walk]
    rfl
  refine .colon rfl rfl hcolon (by simp [hspecifiers]) rfl hnone (fun f hf => by cases hf)
    (forall_mem_singleton.mpr htype) ?_
  rw [expressions_of_colon rfl rfl, hspecifiers, flatMap_singleton, forall_mem_append]
  rw [← expressions_of_ne hcolon, ← expressions_of_ne (binary?_ne_of_isTyped htyped)]
  exact ⟨hlhs.inside, hready.inside⟩

/-- The one colon around a wrapped container has a call on its left and one specifier. -/
theorem ready_banReferences {copy : Node} (hcontainer : Ready container)
    (hcopy : Ready copy) : Ready (banReferences container copy) := by
  rw [banReferences, ofCall, ready_make (by simp)]
  refine ⟨fun f hf => ?_, fun a ha => by cases ha⟩
  cases hf
  refine ready_colon ?_ (by simp [ofCall, binary?_make]) rfl ?_ rfl ?_
  · simpa [ofCall, ofBlock, ofBinary, ofUnary, ident, ready_make] using And.intro hcopy hcontainer
  · simp [ofCall, ident, ready_make]
  · simp [Untyped, ofCall, ident, forall_mem_walk_make, type_make]

theorem evaluatedIn_make {y : Node} {kind : Kind} {args : List Node} :
    EvaluatedIn y (make kind func args loc) ↔ y = make kind func args loc ∨
      (∃ f ∈ func, EvaluatedIn y f) ∨ ∃ a ∈ args, EvaluatedIn y a := by
  have hevaluated : (make kind func args loc).evaluated = func.toList ++ args := rfl
  rw [evaluatedIn_iff, hevaluated]
  simp only [mem_append, mem_toList, or_and_right, exists_or, mem_def]

theorem evaluatedIn_unsafeBranch {y : Node} {statements : List Node} (hs : s ∈ statements)
    (hy : EvaluatedIn y s) : EvaluatedIn y (unsafeBranch statements) := by
  have hblock : ∃ s ∈ statements, EvaluatedIn y s := ⟨s, hs, hy⟩
  simp [unsafeBranch, ofCall, ofBlock, ofDigits, ident, evaluatedIn_make, hblock]

theorem evaluatedIn_banReferences {y : Node} (copy : Node) (hy : EvaluatedIn y container) :
    EvaluatedIn y (banReferences container copy) := by
  simp [banReferences, ofCall, ofBlock, ofBinary, ofUnary, ident, evaluatedIn_make, hy]

end Built

/-! ### Types that branches leave out -/

/-- The node is `unsafe(...)`, and the call, its word, or the block in it has a declared type, which is
    lost with them. -/
def dropsTypes (n : Node) : Bool :=
  n.isCallOf "unsafe" && !n.args.isEmpty &&
    (n.type.isSome || n.func.toList.any hasTypes || n.args.any fun a =>
      a.isBlock && (a.type.isSome || a.func.toList.any hasTypes))

def Lossless (n : Node) : Prop := n.any dropsTypes = false

section Lossless

variable {n m : Node}

theorem lossless_iff : Lossless n ↔ ∀ m, EvaluatedIn m n → dropsTypes m = false := by
  rw [Lossless, ← Bool.not_eq_true, any_eq_true_iff]
  simp

theorem Lossless.part (h : Lossless n) {a : Node} (ha : a ∈ n.evaluated) : Lossless a :=
  lossless_iff.mpr fun m hm => lossless_iff.mp h m (.part ha hm)

/-- A typed node is below a node that has no type, and not in what it applies. -/
theorem evaluatedIn_arg {y : Node} (hy : EvaluatedIn y n) (htype : y.type.isSome) (hn : n.type = none)
    (hfunc : ∀ f ∈ n.func.toList, Untyped f) : ∃ a ∈ n.args, EvaluatedIn y a := by
  rcases evaluatedIn_iff.mp hy with rfl | ⟨a, ha, hy⟩
  · rw [hn] at htype
    cases htype
  · rcases mem_append.mp ha with ha | ha
    · rw [hfunc a ha y hy.mem_walk] at htype
      cases htype
    · exact ⟨a, ha, hy⟩

/-- What is typed in `unsafe(...)` is typed in its statements. -/
theorem Lossless.exists_statement (h : Lossless n) (hcall : n.isCallOf "unsafe" = true) {y : Node}
    (hargs : n.args = [arg]) (hy : EvaluatedIn y n) (htype : y.type.isSome) :
    ∃ s ∈ branchStatements arg, EvaluatedIn y s := by
  have hself := lossless_iff.mp h n .self
  simp only [dropsTypes, hcall, hargs, isEmpty_cons, Bool.not_false, Bool.true_and,
    Bool.or_eq_false_iff, any_cons, any_nil, Bool.or_false, Option.isSome_eq_false_iff,
    Option.isNone_iff_eq_none, any_eq_false, Bool.not_eq_true, ← untyped_iff] at hself
  obtain ⟨a, ha, hy⟩ := evaluatedIn_arg hy htype hself.1.1 hself.1.2
  obtain rfl : a = arg := by simpa [hargs] using ha
  rw [branchStatements]
  split
  · rename_i hblock
    have hinner := hself.2
    simp only [hblock, Bool.true_and, Bool.or_eq_false_iff, Option.isSome_eq_false_iff,
      Option.isNone_iff_eq_none, any_eq_false, Bool.not_eq_true, ← untyped_iff] at hinner
    exact evaluatedIn_arg hy htype hinner.1 hinner.2
  · exact ⟨a, mem_singleton.mpr rfl, hy⟩

theorem hasTypes_anonymous (n : Node) : hasTypes n.anonymous = hasTypes n := by
  rw [Bool.eq_iff_iff, ← not_iff_not, Bool.not_eq_true, Bool.not_eq_true, ← untyped_iff, ← untyped_iff,
    untyped_anonymous]

theorem dropsTypes_anonymous (n : Node) : dropsTypes n.anonymous = dropsTypes n := by
  have hfunc : ∀ m : Node, m.anonymous.func.toList.any hasTypes = m.func.toList.any hasTypes := by
    intro m
    rw [func_anonymous, Option.toList_map, any_map]
    exact congrArg m.func.toList.any (funext hasTypes_anonymous)
  have htype : ∀ m : Node, m.anonymous.type.isSome = m.type.isSome := by
    intro m
    rw [type_anonymous, Option.isSome_map]
  simp only [dropsTypes, isCallOf, isCall, isBlock, kind_anonymous, funcName?_anonymous, hfunc, htype,
    args_anonymous, isEmpty_map, any_map, Function.comp_def]

theorem lossless_step : Lossless n ↔ dropsTypes n = false ∧ ∀ a ∈ n.evaluated, Lossless a := by
  simp only [lossless_iff]
  exact forall_evaluatedIn_iff

theorem lossless_anonymous (n : Node) : Lossless n.anonymous ↔ Lossless n := by
  induction n using evaluatedInduction with
  | step n ih =>
    rw [lossless_step, lossless_step, dropsTypes_anonymous, evaluated_anonymous, forall_mem_map]
    exact and_congr_right fun _ => forall₂_congr ih

end Lossless

/-! ### What the checks keep -/

/-- The typed nodes of `n` are in `n'`, with their labels and types. -/
def Carries (n n' : Node) : Prop :=
  ∀ y, EvaluatedIn y n → y.type.isSome →
    ∃ y', EvaluatedIn y' n' ∧ identity y' = identity y ∧ y'.type = y.type

/-- In place of the node `n`, whose types have been recorded, there is `n'`. -/
structure Replaces (n n' : Node) : Prop where
  ready : Recorded n → Ready n'
  carries : Lossless n → Carries n n'

/-- What the checks keep of a node.  Only calls become other nodes. -/
structure Retained (n n' : Node) : Prop extends Replaces n n' where
  kind : n'.kind = n.kind ∨ n.isCall = true ∧ n'.isCall = true
  args : n.isCall = false → Lossless n → ∀ a ∈ n.args, ∃ a' ∈ n'.args, Carries a a'

section Retained

variable {n : Node}

theorem Carries.refl (n : Node) : Carries n n := fun y hy _ => ⟨y, hy, rfl, rfl⟩

theorem Carries.of_mem {a' n' : Node} (h : Carries a a') (ha : a' ∈ n'.evaluated) : Carries a n' := by
  intro y hy htype
  obtain ⟨y', hy', hsame⟩ := h y hy htype
  exact ⟨y', .part ha hy', hsame⟩

theorem Replaces.refl (n : Node) : Replaces n n := ⟨Recorded.ready, fun _ => Carries.refl n⟩

theorem Retained.refl (n : Node) : Retained n n where
  toReplaces := Replaces.refl n
  kind := .inl rfl
  args := fun _ _ a ha => ⟨a, ha, Carries.refl a⟩

theorem Retained.parts {args : List Node} (hargs : List.Forall₂ Replaces n.args args)
    (hfunc : List.Forall₂ Replaces n.func.toList func.toList) : Retained n { n with args, func } := by
  have hparts : List.Forall₂ Replaces n.evaluated (evaluated { n with args, func }) :=
    rel_append hfunc hargs
  refine ⟨⟨fun h => ?_, fun h y hy htype => ?_⟩, .inl rfl, fun _ h a ha => ?_⟩
  · obtain ⟨⟨hcolon, htype⟩, hrecorded⟩ := recorded_iff.mp h
    refine .plain hcolon htype fun a' ha' => ?_
    rw [expressions_of_ne (n := { n with args, func }) hcolon] at ha'
    obtain ⟨a, ha, hreplaces⟩ := Failing.exists_mem_of_forall₂ hparts ha'
    exact hreplaces.ready (hrecorded a ha)
  · rcases evaluatedIn_iff.mp hy with rfl | ⟨a, ha, hy⟩
    · exact ⟨_, .self, rfl, rfl⟩
    · obtain ⟨a', ha', hreplaces⟩ := Failing.exists_mem_of_forall₂ hparts.flip ha
      exact (hreplaces.carries (h.part ha)).of_mem ha' y hy htype
  · obtain ⟨a', ha', hreplaces⟩ := Failing.exists_mem_of_forall₂ hargs.flip ha
    exact ⟨a', ha', hreplaces.carries (h.part (mem_append_right _ ha))⟩

theorem replaces_wrapContainer {iterable : Node} (hne : ∀ m ∈ iterable.walk, m.id ≠ 0) (k k' : Nat) :
    Replaces iterable (wrapContainer iterable k k') := by
  refine ⟨fun h => ?_, fun _ y hy _ => ?_⟩
  · have hcopy : Ready (iterable.copy.unlabel.label k).1 := by
      rw [← ready_anonymous, anonymous_label, anonymous_unlabel, ready_anonymous]
      exact h.copy.ready
    exact (ready_banReferences h.ready hcopy).label k'
  · have hlabelled : ∀ m ∈ y.walk, m.id ≠ 0 := fun m hm => hne m (mem_walk_trans hy.mem_walk hm)
    exact ⟨y, evaluatedIn_label (evaluatedIn_banReferences _ hy) hlabelled k', rfl, rfl⟩

theorem isBlock_of_isCall (h : n.isCall = true) : n.isBlock = false := by
  obtain ⟨oneLiner, hkind⟩ := kind_of_isCall h
  rw [isBlock, hkind]
  rfl

theorem name?_of_isCall (h : n.isCall = true) : n.name? = none := by
  obtain ⟨oneLiner, hkind⟩ := kind_of_isCall h
  rw [name?, hkind]

theorem Retained.isBlock {n' : Node} (h : Retained n n') : n'.isBlock = n.isBlock := by
  rcases h.kind with hkind | ⟨hn, hn'⟩
  · rw [Node.isBlock, hkind, Node.isBlock]
  · rw [isBlock_of_isCall hn, isBlock_of_isCall hn']

theorem Retained.name? {n' : Node} (h : Retained n n') : n'.name? = n.name? := by
  rcases h.kind with hkind | ⟨hn, hn'⟩
  · rw [Node.name?, hkind, Node.name?]
  · rw [name?_of_isCall hn, name?_of_isCall hn']

theorem isCall_of_isBlock (h : n.isBlock = true) : n.isCall = false := by
  cases hcall : n.isCall with
  | false => rfl
  | true =>
    rw [isBlock_of_isCall hcall] at h
    cases h

theorem mem_walk_of_mem_branchStatements {m : Node} (hs : s ∈ branchStatements arg)
    (hm : m ∈ s.walk) : m ∈ arg.walk := by
  rw [branchStatements] at hs
  split at hs
  · exact mem_walk_of_mem_parts (arg_mem_parts hs) hm
  · rwa [← mem_singleton.mp hs]

/-- The statements of a branch have what was typed in the statements of `unsafe(...)`. -/
theorem Retained.statements {arg' : Node} (h : Retained arg arg') (hlossless : Lossless arg)
    (hs : s ∈ branchStatements arg) : ∃ s' ∈ branchStatements arg', Carries s s' := by
  rw [branchStatements] at hs ⊢
  rw [h.isBlock]
  split at hs
  · rename_i hblock
    rw [if_pos hblock]
    exact h.args (isCall_of_isBlock hblock) hlossless s hs
  · rename_i hblock
    rw [if_neg hblock]
    obtain rfl : s = arg := mem_singleton.mp hs
    exact ⟨arg', mem_singleton.mpr rfl, h.carries hlossless⟩

theorem Ready.statements (h : Ready arg) : ∀ s ∈ branchStatements arg, Ready s := by
  rw [branchStatements]
  split
  · rename_i hblock
    have hcolon : arg.binary? ≠ some .typed := by
      rw [isBlock, Bool.or_eq_true, beq_iff_eq, beq_iff_eq] at hblock
      rcases hblock with hblock | hblock <;> simp [binary?, hblock]
    intro s hs
    refine h.inside s ?_
    rw [expressions_of_ne hcolon]
    exact mem_append_right _ hs
  · exact forall_mem_singleton.mpr h

/-- An `unsafe` block is retained in the branch that it becomes. -/
theorem retained_unsafeBranch (hargs : List.Forall₂ Retained n.args [arg])
    (hfunc : List.Forall₂ Retained n.func.toList func.toList)
    (hcall : isCallOf { n with args := [arg], func } "unsafe" = true)
    (hne : ∀ m ∈ arg.walk, m.id ≠ 0) (k : Nat) :
    Retained n ((unsafeBranch (branchStatements arg)).label k).1 := by
  -- the node was such a call before its parts were checked
  have hcalled : n.isCall = true := (Bool.and_eq_true_iff.mp hcall).1
  have hname : n.funcName? = some "unsafe" := by
    have hname : func.bind Node.name? = some "unsafe" := beq_iff_eq.mp (Bool.and_eq_true_iff.mp hcall).2
    obtain ⟨f, hf, hname⟩ := Option.bind_eq_some_iff.mp hname
    obtain ⟨g, hg, hretained⟩ := Failing.exists_mem_of_forall₂ hfunc (mem_toList.mpr hf)
    rw [funcName?, mem_toList.mp hg, Option.bind_some, ← hretained.name?, hname]
  have hcalls : n.isCallOf "unsafe" = true := by simp [isCallOf, hcalled, hname]
  obtain ⟨a, hretained, hone⟩ : ∃ a, Retained a arg ∧ n.args = [a] := by
    cases hn : n.args with
    | nil => simp [hn] at hargs
    | cons a as =>
      rw [hn] at hargs
      cases hargs with
      | cons h hrest =>
        cases hrest
        exact ⟨a, h, rfl⟩
  have ha : a ∈ n.evaluated := mem_append_right _ (by simp [hone])
  refine ⟨⟨fun h => ?_, fun h y hy htype => ?_⟩, .inr ⟨hcalled, ?_⟩, fun hnot => ?_⟩
  · exact (ready_unsafeBranch (hretained.ready (h.part ha)).statements).label k
  · obtain ⟨s, hs, hy⟩ := h.exists_statement hcalls hone hy htype
    obtain ⟨s', hs', hcarries⟩ := hretained.statements (h.part ha) hs
    obtain ⟨y', hy', hsame⟩ := hcarries y hy htype
    have hlabelled : ∀ m ∈ y'.walk, m.id ≠ 0 := fun m hm =>
      hne m (mem_walk_of_mem_branchStatements hs' (mem_walk_trans hy'.mem_walk hm))
    exact ⟨y', evaluatedIn_label (evaluatedIn_unsafeBranch hs' hy') hlabelled k, hsame⟩
  · rw [label_eq]
    rfl
  · rw [hcalled] at hnot
    cases hnot

/-- **The checks keep all declared types**, but for those of what branches leave out. -/
theorem respected_retained : Respected False Retained where
  refl := Retained.refl
  parts := fun hargs hfunc =>
    Retained.parts (hargs.imp fun _ _ h => h.toReplaces) (hfunc.imp fun _ _ h => h.toReplaces)
  wrap := by
    intro head target iterable k k' hargs hne _
    refine Retained.parts ?_ (forall₂_same.mpr fun f _ => Replaces.refl f)
    rw [hargs]
    exact .cons (Replaces.refl target) (.cons (replaces_wrapContainer hne k k') .nil)
  branch := fun hargs hfunc hcall hne => retained_unsafeBranch hargs hfunc hcall hne _

end Retained

/-! ### All passes -/

section Passes

variable {p q : Program} {n n' x y c : Node}

theorem Carries.trans {m : Node} (h : Carries n m) (h' : Carries m n') : Carries n n' := by
  intro y hy htype
  obtain ⟨y', hy', hid, hsame⟩ := h y hy htype
  obtain ⟨y'', hy'', hid', hsame'⟩ := h' y' hy' (by rwa [hsame])
  exact ⟨y'', hy'', hid'.trans hid, hsame'.trans hsame⟩

/-- Typed nodes that stand in declared types are carried along. -/
theorem Carries.mem_walk (h : Carries n n') (hx : x ∈ n.walk) (htype : x.type.isSome) :
    ∃ x' ∈ n'.walk, identity x' = identity x ∧ x'.type = x.type := by
  rcases evaluated_or_typed hx with hx | ⟨y, hy, t, ht, hx⟩
  · obtain ⟨y', hy', hsame⟩ := h x hx htype
    exact ⟨y', hy'.mem_walk, hsame⟩
  · obtain ⟨y', hy', _, hsame⟩ := h y hy (by rw [mem_def.mp ht]; rfl)
    have htype' : t ∈ y'.type := by rwa [hsame]
    exact ⟨x, mem_walk_trans hy'.mem_walk (mem_walk_of_mem_parts (type_mem_parts htype') hx), rfl, rfl⟩

/-- Where all nodes have labels, new labels for what the typed nodes were carried to change nothing. -/
theorem Carries.label (h : Carries n n') (hne : ∀ m ∈ n.walk, m.id ≠ 0) (next : Nat) :
    Carries n (n'.label next).1 := by
  intro y hy htype
  obtain ⟨y', hy', hid, hsame⟩ := h y hy htype
  obtain ⟨k, hk⟩ := exists_label_evaluatedIn hy' next
  have hzero : y'.id ≠ 0 := by
    rw [show y'.id = y.id from congrArg Prod.fst hid]
    exact hne y hy.mem_walk
  refine ⟨_, hk, ?_, ?_⟩
  · rw [← hid, identity, id_label, if_neg hzero, label_eq]
    rfl
  · rw [label_eq]
    cases ht : y'.type with
    | none => rw [← hsame, ht]; rfl
    | some t =>
      have htyped : t ∈ y.type := by rw [← hsame, ht]; rfl
      have hlabelled : ∀ m ∈ t.walk, m.id ≠ 0 := fun m hm => hne m (mem_walk_trans hy.mem_walk
        (mem_walk_of_mem_parts (type_mem_parts htyped) hm))
      rw [← hsame, ht]
      simp only [labelOption, label_eq_self hlabelled]

theorem Retained.binary?_ne {n' : Node} (h : Retained n n') (hn : n.binary? ≠ some .typed) :
    n'.binary? ≠ some .typed := by
  rcases h.kind with hkind | ⟨_, hn'⟩
  · rwa [binary?, hkind, ← binary?]
  · obtain ⟨oneLiner, hkind⟩ := kind_of_isCall hn'
    simp [binary?, hkind]

/-- The tree of the next pass, if types can be recorded and the label of the root is its own. -/
theorem tree_assignScopes {u : Unit} (halone : p.tree.RootAlone) (hcolon : p.tree.binary? ≠ some .typed)
    (hready : Ready p.tree) (hlt : ∀ l ∈ p.tree.labels, l < p.limit)
    (h : assignScopes.run p = .ok (u, q)) : q.tree = ((declareTypes p.tree).label p.limit).1 := by
  have hgrow := growsScopes_resolve _ _ _ _ (assignScopes_eq_ok h)
  have hsub := sublist_labels_declareTypes hready.declarable
  rw [hgrow.tree]
  refine Program.tree_refresh (fun a ha hmem => ?_) fun l hl => hlt l (hsub.subset hl)
  rw [declareTypes_of_ne hcolon] at ha hmem
  rcases mem_append.mp ha with ha | ha
  · change a ∈ (recordParts p.tree).evaluated at ha
    rw [evaluated_recordParts] at ha
    obtain ⟨b, hb, rfl⟩ := mem_map.mp ha
    exact halone b (mem_parts_of_mem_evaluated hb)
      ((sublist_labels_declareTypes (hready.declarable.part hb)).subset hmem)
  · exact halone a (type_mem_parts (mem_toList.mp ha)) hmem

theorem GivesType.mem_walk (h : GivesType c n) : c ∈ n.walk := by
  induction h with
  | self => exact c.self_mem_walk
  | inside ha _ ih =>
    obtain ⟨b, hb, ha⟩ := exists_part_of_mem_expressions ha
    exact mem_walk_of_mem_parts hb (mem_walk_trans ha ih)

/-- A node that was given its type in a labelled tree is found when what was recorded gets labels. -/
theorem IsGiven.exists_label {k : Nat} (hc : GivesType c n) (hne : ∀ m ∈ n.walk, m.id ≠ 0)
    {types : List Node} (hargs : c.args = lhs :: types) {m : Node} (hx : x ∈ m.walk) (htype : x.type.isSome)
    (h : IsGiven c x) : ∃ x' ∈ (m.label k).1.walk, x'.type.isSome ∧ IsGiven c x' := by
  obtain ⟨hid, hspecifiers⟩ := h lhs types hargs
  have hpart : ∀ a ∈ c.args, ∀ b ∈ a.walk, b.id ≠ 0 := fun a ha b hb =>
    hne b (mem_walk_trans hc.mem_walk (mem_walk_of_mem_parts (arg_mem_parts ha) hb))
  rw [hargs, forall_mem_cons] at hpart
  obtain ⟨t, ht⟩ := Option.isSome_iff_exists.mp htype
  have hzero : x.id ≠ 0 := by
    rw [show x.id = lhs.id from congrArg Prod.fst hid]
    exact hpart.1 lhs lhs.self_mem_walk
  have hzeros : ∀ s ∈ t.specifiers, s.id ≠ 0 := by
    intro s hs
    have hmem : identity s ∈ (types.flatMap specifiers).map identity := by
      rw [← hspecifiers, ht]
      exact mem_map_of_mem (by simpa using hs)
    obtain ⟨s', hs', hsame⟩ := mem_map.mp hmem
    obtain ⟨a, ha, hs'⟩ := mem_flatMap.mp hs'
    rw [show s.id = s'.id from congrArg Prod.fst hsame.symm]
    exact hpart.2 a ha s' (mem_specifiers hs').1
  obtain ⟨k', hk'⟩ := exists_label_mem_walk hx k
  refine ⟨_, hk', by rw [label_eq, ht]; rfl, fun lhs' types' hargs' => ?_⟩
  rw [hargs, List.cons.injEq] at hargs'
  obtain ⟨rfl, rfl⟩ := hargs'
  refine ⟨?_, ?_⟩
  · rw [← hid, identity, id_label, if_neg hzero, label_eq]
    rfl
  · rw [← hspecifiers, label_eq, ht]
    simpa [labelOption] using specifiers_label _ hzeros

end Passes

section Analyse

variable {p : Program} {t module : Node}

theorem binary?_label (n : Node) (next : Nat) : (n.label next).1.binary? = n.binary? := by
  rw [← binary?_anonymous, anonymous_label, binary?_anonymous]

/-- **No specifier is lost** from a bare module, such as one that has been read, if no colon that gives a
    type has a colon on its left, and no `unsafe(...)` with something in it has a type at the call, its
    word or its block.  In the tree of the analysed
    program, colons stand only where they join the specifiers of a declared type; and what stood on the
    left of a colon has a declared type that lists all specifiers of the colon, in order. -/
theorem specifiers_retained (hbare : Bare module) (hmodule : module.isModule = true)
    (ht : (prepare module).result = .ok t) (h : (analyse module).result = .ok p)
    (hplain : ∀ c, GivesType c t → IsPlainColon c) (hlossless : Lossless (declareTypes t)) :
    (p.tree.binary? ≠ some .typed ∧ ∀ m ∈ p.tree.walk, m.binary? ≠ some .typed →
        ∀ a ∈ m.evaluated, a.binary? ≠ some .typed) ∧
      ∀ c, GivesType c (({} : Program).resume t).tree → ∃ lhs types, c.args = lhs :: types ∧
        ∃ x ∈ p.tree.walk, identity x = identity lhs ∧
          (x.type.toList.flatMap specifiers).map identity = (types.flatMap specifiers).map identity := by
  obtain ⟨t', p₁, p₂, table, p₃, ht', hfirst, hcheck, hsecond, rfl⟩ := passes_of_analyse h
  obtain rfl : t' = t := Except.ok.inj (ht'.symm.trans ht)
  have hbare' := bare_prepare hbare ht
  have hmodule' := isModule_prepare hmodule ht
  -- before the checks
  obtain ⟨k, htree, hknows⟩ := knows_resume hbare'
  have hready : Ready (t'.label k).1 := (Untyped.ready (fun m hm => (hbare' m hm).2) hplain).label k
  have hcolon : (t'.label k).1.binary? ≠ some .typed := by
    rw [binary?_label]
    simp [binary?, beq_iff_eq.mp hmodule']
  have htree₁ : p₁.tree = _ := tree_assignScopes (by rw [htree]; exact hknows.place.rootAlone_self)
    (by rwa [htree]) (by rwa [htree]) (by rw [htree]; exact hknows.bounds.2.2) hfirst
  rw [htree] at htree₁ ⊢
  have hresolved := resolved_declareTypes hready
  have hrecorded : Recorded p₁.tree := by
    rw [htree₁]
    exact (resolved_label.mpr hresolved.1).recorded (by rw [binary?_label]; exact hresolved.2)
  have hcheckable := checkable_assignScopes hbare' hfirst
  have hlossless₁ : Lossless p₁.tree := by
    rw [← lossless_anonymous, hcheckable.anonymous, lossless_anonymous]
    exact hlossless
  -- after them
  obtain ⟨hsecures, halone⟩ :=
    secures_checkSafety respected_retained hcheckable hmodule' (fun h => h.elim) hcheck
  have hretained : Retained p₁.tree p₂.tree := (List.forall₂_cons.mp hsecures.kept).1
  have hready₂ := hretained.ready hrecorded
  have hcolon₂ := hretained.binary?_ne (recorded_iff.mp hrecorded).1.1
  have htree₃ : p₃.tree = ((declareTypes p₂.tree).label p₂.limit).1 :=
    tree_assignScopes (p := { p₂ with scopeTable := table }) halone hcolon₂ hready₂
      (hsecures.lt_limit hcheckable.knows.place) hsecond
  have hresolved₂ := resolved_declareTypes hready₂
  have hcarries : Carries p₁.tree p₃.tree := by
    rw [htree₃]
    refine Carries.label (Carries.trans (hretained.carries hlossless₁) ?_) hcheckable.knows.numbers.ne_zero _
    exact fun y hy htype => kept_declareTypes hready₂ hy htype
  refine ⟨⟨?_, fun m hm hplain => ?_⟩, fun c hc => ?_⟩
  · show p₃.tree.binary? ≠ _
    rw [htree₃, binary?_label]
    exact hresolved₂.2
  · change m ∈ p₃.tree.walk at hm
    rw [htree₃] at hm
    exact resolved_label.mpr hresolved₂.1 m (mem_plainNodes.mpr ⟨hm, hplain⟩)
  · obtain ⟨x, hx, htype, hgiven⟩ := given_declareTypes hc hready
    obtain ⟨lhs, types, hargs⟩ := hc.exists_args hready
    obtain ⟨x₁, hx₁, htype₁, hgiven₁⟩ := hgiven.exists_label hc hknows.numbers.ne_zero hargs
      (mem_plainNodes.mp hx).1 htype
    rw [← htree₁] at hx₁
    obtain ⟨x₃, hx₃, hid, hsame⟩ := hcarries.mem_walk hx₁ htype₁
    obtain ⟨hid₁, hspecifiers⟩ := hgiven₁ lhs types hargs
    refine ⟨lhs, types, hargs, x₃, hx₃, hid.trans hid₁, ?_⟩
    rw [hsame, hspecifiers]

/-- The call `g(y: (const: T))`, whose copy has the type as well. -/
def chainContainer : Node :=
  ofCall (ident "g") [ofBinary .typed ":" (ident "y") (ofBinary .typed ":" (ident "const") (ident "T"))]

/-- In a loop over a container with types, and in unsafe code, no specifier is lost. -/
theorem specifiers_retained_chainContainer : ∃ p t, Bare (loopOver chainContainer) ∧
    (loopOver chainContainer).isModule = true ∧ (prepare (loopOver chainContainer)).result = .ok t ∧
      (analyse (loopOver chainContainer)).result = .ok p ∧
        (∀ c, GivesType c t → IsPlainColon c) ∧ Lossless (declareTypes t) ∧
          (p.tree.binary? ≠ some .typed ∧ ∀ m ∈ p.tree.walk, m.binary? ≠ some .typed →
            ∀ a ∈ m.evaluated, a.binary? ≠ some .typed) ∧
              ∀ c, GivesType c (({} : Program).resume t).tree → ∃ lhs types, c.args = lhs :: types ∧
                ∃ x ∈ p.tree.walk, identity x = identity lhs ∧
                  (x.type.toList.flatMap specifiers).map identity =
                    (types.flatMap specifiers).map identity := by
  have hbare : Bare (loopOver chainContainer) := by
    refine bare_loopOver ?_
    simp [chainContainer, ofCall, ofBinary, ident, bare_make]
  have hanalysed : (analyse (loopOver chainContainer)).result.toOption.map (fun _ => ()) = some () := by
    decide +kernel
  have hprepared : (prepare (loopOver chainContainer)).result.toOption.map (fun t =>
      (t.walk.all fun c => decide (IsPlainColon c), (declareTypes t).any dropsTypes)) =
        some (true, false) := by
    decide +kernel
  obtain ⟨p, hp, -⟩ := Failing.exists_of_toOption hanalysed
  obtain ⟨t, ht, hfacts⟩ := Failing.exists_of_toOption hprepared
  obtain ⟨hcolons, hlossless⟩ := Prod.mk.inj hfacts
  have hplain : ∀ c, GivesType c t → IsPlainColon c := fun c hc =>
    of_decide_eq_true (List.all_eq_true.mp hcolons c hc.mem_walk)
  exact ⟨p, t, hbare, rfl, ht, hp, hplain, hlossless,
    specifiers_retained hbare rfl ht hp hplain hlossless⟩

/-- The module `(x: a): b`. -/
def nestedColon : Node :=
  ofModule [ofBinary .typed ":" (ofBinary .typed ":" (ident "x") (ident "a")) (ident "b")]

/-- The module `def (f(): unsafe(x): int)`. -/
def typedUnsafe : Node :=
  ofModule [ofCall (ident "def") [ofCall (ident "f") [],
    ofBlock [ofBinary .typed ":" (ofCall (ident "unsafe") [ident "x"]) (ident "int")]]]

/-- Of a colon with another one on its left the specifiers are lost, and so is the type of
    `unsafe(...)`. -/
theorem specifiers_lost : (∃ p, Bare nestedColon ∧ (analyse nestedColon).result = .ok p ∧
      p.tree.args.map (fun x => (x.kind, (x.type.toList.flatMap specifiers).map Node.kind)) =
        [(.name "x", [.name "a"])]) ∧
    ∃ p, Bare typedUnsafe ∧ (analyse typedUnsafe).result = .ok p ∧ hasTypes p.tree = false := by
  refine ⟨?_, ?_⟩
  · have hbare : Bare nestedColon := by
      simp [nestedColon, ofModule, ofBinary, ident, bare_make]
    have hanalysed : (analyse nestedColon).result.toOption.map (fun p => p.tree.args.map
        fun x => (x.kind, (x.type.toList.flatMap specifiers).map Node.kind)) =
          some [(.name "x", [.name "a"])] := by
      decide +kernel
    obtain ⟨p, hp, htypes⟩ := Failing.exists_of_toOption hanalysed
    exact ⟨p, hbare, hp, htypes⟩
  · have hbare : Bare typedUnsafe := by
      simp [typedUnsafe, ofModule, ofCall, ofBlock, ofBinary, ident, bare_make]
    have hanalysed : (analyse typedUnsafe).result.toOption.map (fun p => hasTypes p.tree) =
        some false := by
      decide +kernel
    obtain ⟨p, hp, hnone⟩ := Failing.exists_of_toOption hanalysed
    exact ⟨p, hbare, hp, hnone⟩

end Analyse

end Cppward.Analysis
