import Cppward.Proofs.Analysis.Holding
import Cppward.Proofs.Emit.Run
import Cppward.Proofs.Evaluation.Trace

namespace Cppward.Analysis.Program

open Evaluation Node List

/-!
# Last uses

A variable is moved from at what `isLastUse` takes for its last use.  The check goes the way out from
the use and looks at the statements after it, in full depth, and at the arguments beside it, not in
depth.

* `no_later_statement` — at the lists of statements on the way, nothing is overlooked.
* `not_followed_iff` — hence a last use is one in every trace exactly if no other node on the way
  lets a use of the variable come after it.  Those are the other operands and arguments, the branches
  after a condition, and the next round of a loop.
-/

variable {holder part : Node} {fuel : Nat} {name : String} {is : List Nat}
variable {p : Program} {tree n m : Node} {path : List (Node × Node)}

/-- The variable that `n` names is not defined in the loop. -/
def outlives (p : Program) (n loop : Node) : Bool :=
  match (p.scopeOf? n).bind (p.findDef · n) with
  | some d => loop.walk.all (·.id != d.defining)
  | none => true

/-! ### The way of the check -/

theorem holds_of_path (hpath : Path tree n path) (h : p.Holds tree) : p.Holds n := by
  induction hpath with
  | here => exact h
  | step hpart _ ih => exact ih.part (mem_parts_of_mem_evaluated hpart)

theorem parent_of_path (hpath : Path tree part ((holder, part) :: path))
    (h : p.Holds tree) : p.parent? part = some holder := by
  cases hpath with
  | step hpart hpath => exact (holds_of_path hpath h).parent (mem_parts_of_mem_evaluated hpart)

theorem pairwise_sizeOf_path (hpath : Path tree n path) :
    (∀ level ∈ path, sizeOf n < sizeOf level.1) ∧
      (path.map Prod.fst).Pairwise fun a b => sizeOf a < sizeOf b := by
  induction hpath with
  | here => simp
  | @step holder part path hpart _ ih =>
    obtain ⟨hlarger, hpairwise⟩ := ih
    have hlt := sizeOf_lt_of_mem_evaluated hpart
    refine ⟨?_, ?_⟩
    · intro level hlevel
      rcases mem_cons.mp hlevel with rfl | hlevel
      · exact hlt
      · exact hlt.trans (hlarger level hlevel)
    · rw [map_cons, pairwise_cons]
      refine ⟨fun b hb => ?_, hpairwise⟩
      obtain ⟨level, hlevel, rfl⟩ := mem_map.mp hb
      exact hlarger level hlevel

theorem mem_nodes_of_parent (h : p.parent? n = some holder) : holder ∈ p.nodes.toList := by
  obtain ⟨label, -, hlabel⟩ := Option.bind_eq_some_iff.mp h
  rw [node?] at hlabel
  split at hlabel
  · cases hlabel
  · exact Array.mem_toList_iff.mpr (Array.mem_of_getElem? hlabel)

/-- The way is not longer than the table of nodes, which bounds the steps of the check. -/
theorem length_path_le (hpath : Path tree n path) (h : p.Holds tree) : path.length ≤ p.nodes.size := by
  have hnodup : (path.map Prod.fst).Nodup :=
    (pairwise_sizeOf_path hpath).2.imp fun hlt heq => by simp [heq] at hlt
  have hsubset : path.map Prod.fst ⊆ p.nodes.toList := by
    clear hnodup
    induction hpath with
    | here => simp
    | step hpart hpath ih =>
      rw [map_cons, cons_subset]
      exact ⟨mem_nodes_of_parent (parent_of_path (.step hpart hpath) h), ih⟩
  simpa using (hnodup.subperm hsubset).length_le

/-- Another use of the name of `n`. -/
def isOther (n m : Node) : Bool := m.id != n.id && m.name? == n.name?

theorem noOtherUse_succ (hdef : holder.isDefinition = false)
    (h : p.noOtherUse n (fuel + 1) m (some holder) = true) : (holder.isBlock = true →
        ∀ statement ∈ following m holder.args, statement.any (isOther n) = false) ∧
      p.noOtherUse n fuel holder (p.parent? holder) = true := by
  rw [noOtherUse, if_neg (by simp [hdef])] at h
  change (if (holder.isBlock && (following m holder.args).any fun statement =>
      statement.any (isOther n)) || holder.args.any (isOther n) then false
    else p.noOtherUse n fuel holder (p.parent? holder)) = true at h
  split at h
  · cases h
  · next hnone =>
    refine ⟨fun hblock statement hstatement => ?_, h⟩
    rw [Bool.or_eq_true, not_or, hblock, Bool.true_and, Bool.not_eq_true, any_eq_false] at hnone
    exact Bool.eq_false_of_not_eq_true (hnone.1 statement hstatement)

theorem not_isDefinition_of_isSequence (h : n.isSequence = true) : n.isDefinition = false := by
  have hkind : n.kind = .block ∨ n.kind = .module := by
    simpa [isSequence, isBlock] using (Bool.and_eq_true_iff.mp h).1
  have hcall : n.isCall = false := by
    rcases hkind with hkind | hkind <;> simp [isCall, hkind]
  simp [isDefinition, isCallOfAny, isLambda, hcall]

/-- On the way to the definition around `n`, no statement after the way has another use of the
    name. -/
theorem no_later_statement (hholds : p.Holds tree) (hpath : Path tree m path)
    (hinside : ∀ level ∈ path.dropLast, level.1.isDefinition = false) (hfuel : path.length ≤ fuel)
    (h : p.noOtherUse n fuel m (p.parent? m) = true) {level : Node × Node} (hlevel : level ∈ path)
    (hseq : level.1.isSequence = true) :
    ∀ statement ∈ following level.2 level.1.args, statement.any (isOther n) = false := by
  -- The check goes along the way, with fuel for all of it.
  induction hpath generalizing fuel with
  | here => cases hlevel
  | @step holder part path hpart hpath ih =>
    obtain ⟨fuel, rfl⟩ : ∃ f, fuel = f + 1 := Nat.exists_eq_add_one.mpr (by simp at hfuel; omega)
    rw [parent_of_path (.step hpart hpath) hholds] at h
    by_cases hdef : holder.isDefinition = true
    · -- A definition ends the way, and is no list of statements.
      have hlast : path = [] := by
        by_contra hne
        have hfalse := hinside (holder, part) (by simp [dropLast_cons_of_ne_nil hne])
        simp [hdef] at hfalse
      subst hlast
      obtain rfl := mem_singleton.mp hlevel
      simp [not_isDefinition_of_isSequence hseq] at hdef
    · obtain ⟨hblock, hrest⟩ := noOtherUse_succ (by simpa using hdef) h
      rcases mem_cons.mp hlevel with rfl | hlevel
      · exact hblock (Bool.and_eq_true_iff.mp hseq).1
      · refine ih (fun level hlevel => hinside level ?_) (by simpa using hfuel) hrest hlevel
        have hne : path ≠ [] := by
          rintro rfl
          cases hlevel
        rw [dropLast_cons_of_ne_nil hne]
        exact mem_cons_of_mem _ hlevel

/-! ### Lists of statements -/

theorem following_eq {front back : List Node} (hfront : ∀ a ∈ front, a.id ≠ n.id) :
    following n (front ++ n :: back) = back := by
  rw [following, dropWhile_append_of_pos (by simpa using hfront)]
  simp

/-- After a statement with `n` in it, no use of the name can come: there would be another use in the
    statements after it. -/
theorem not_exposed_of_isSequence {outlives : Node → Bool}
    (hlabels : holder.Labelled) (hn : EvaluatedIn n part) (hname : n.name? = some name)
    (hseq : holder.isSequence = true)
    (h : ∀ statement ∈ following part holder.args, statement.any (isOther n) = false) :
    ¬Exposed outlives name (holder, part) := by
  rintro ⟨later, hafter, m, hm, hmname⟩
  rw [schedule_of_isSequence hseq] at hafter
  obtain ⟨front, back, hargs, hlater⟩ := Schedule.after_inOrder.mp hafter
  -- The statements have different labels in them, so `part` is found where it stands, and no use
  -- after it is `n`.
  have hpairwise : (front ++ part :: back).Pairwise
      fun a b => ∀ x ∈ a.walk, ∀ y ∈ b.walk, x.id ≠ y.id := by
    rw [← hargs]
    exact hlabels.pairwise.sublist
      ((sublist_append_right _ _).trans (sublist_append_left _ _))
  rw [pairwise_append, pairwise_cons] at hpairwise
  obtain ⟨-, ⟨hback, -⟩, hfront⟩ := hpairwise
  have hfollowing : following part holder.args = back := by
    rw [hargs]
    exact following_eq fun a ha =>
      hfront a ha part mem_cons_self a a.self_mem_walk part part.self_mem_walk
  have hne : m.id ≠ n.id := (hback later hlater n hn.mem_walk m hm.mem_walk).symm
  have hany : later.any (isOther n) = true :=
    any_eq_true_iff.mpr ⟨m, hm, by simp [isOther, hne, hmname, hname]⟩
  rw [h later (hfollowing ▸ hlater)] at hany
  cases hany

/-! ### The last use in the order of evaluation -/

/-- A name that occurs in `tree`, with the way out from it.  No definition is passed on the way:
    `tree` is the definition around the name or a part of it. -/
structure Occurs (tree n : Node) (name : String) (path : List (Node × Node)) : Prop where
  way : Path tree n path
  named : n.name? = some name
  leaf : n.evaluated = []
  inside : ∀ level ∈ path.dropLast, level.1.isDefinition = false

theorem noOtherUse_of_isLastUse (h : p.isLastUse n = .ok true) :
    p.noOtherUse n (p.nodes.size + 1) n (p.parent? n) = true := by
  rw [isLastUse] at h
  split at h
  · cases h
  · exact (Bool.and_eq_true_iff.mp (Except.ok.inj h)).2

/-- A use is followed in some trace exactly if that shows at some level. -/
theorem continues_iff_isExposed {outlives : Node → Bool} (hlabels : tree.Labelled)
    (hn : Occurs tree n name path) : Continues (tree.traces outlives name) n ↔
      ∃ level ∈ path, isExposed outlives name level = true := by
  rw [continues_traces_iff hlabels hn.way hn.named hn.leaf]
  refine exists_congr fun level => and_congr_right fun hlevel => ?_
  obtain ⟨hlabelled, hpart, -⟩ := hn.way.level hlabels .self hlevel
  exact (isExposed_iff hlabelled hpart).symm

/-- **When a last use is one.**  A use that passes the check is the last one in every trace exactly if
    no node on the way out from it, lists of statements apart, lets a use of the variable be evaluated
    after the part that the way comes from. -/
theorem not_followed_iff {name : String} (hholds : p.Holds tree) (hlabels : tree.Labelled)
    (hn : Occurs tree n name path) (hlast : p.isLastUse n = .ok true) :
    (∀ t ∈ tree.traces (p.outlives n) name, ¬Followed n t) ↔
      ∀ level ∈ path, level.1.isSequence = false → isExposed (p.outlives n) name level = false := by
  have hsequence : ∀ level ∈ path, level.1.isSequence = true →
      ¬isExposed (p.outlives n) name level = true := by
    intro level hlevel hseq hexposed
    obtain ⟨hlabelled, hpart, hin⟩ := hn.way.level hlabels .self hlevel
    refine not_exposed_of_isSequence hlabelled hin hn.named hseq ?_
      ((isExposed_iff hlabelled hpart).mp hexposed)
    exact no_later_statement hholds hn.way hn.inside
      ((length_path_le hn.way hholds).trans (Nat.le_succ _)) (noOtherUse_of_isLastUse hlast) hlevel hseq
  constructor
  · intro h level hlevel _
    refine Bool.eq_false_of_not_eq_true fun hexposed => ?_
    obtain ⟨t, ht, hfollowed⟩ := (continues_iff_isExposed hlabels hn).mpr ⟨level, hlevel, hexposed⟩
    exact h t ht hfollowed
  · intro h t ht hfollowed
    obtain ⟨level, hlevel, hexposed⟩ := (continues_iff_isExposed hlabels hn).mp ⟨t, ht, hfollowed⟩
    cases hseq : level.1.isSequence with
    | true => exact hsequence level hlevel hseq hexposed
    | false =>
      rw [h level hlevel hseq] at hexposed
      cases hexposed

/-! ### Two programs -/

/-- The node that is reached by the given arguments, the innermost first, and the way out from it. -/
def wayTo? (tree : Node) : List Nat → Option (Node × List (Node × Node))
  | [] => some (tree, [])
  | i :: is => do
    let (holder, path) ← wayTo? tree is
    let part ← holder.args[i]?
    return (part, (holder, part) :: path)

theorem path_of_wayTo? (h : wayTo? tree is = some (n, path)) : Path tree n path := by
  induction is generalizing n path with
  | nil =>
    obtain ⟨rfl, rfl⟩ := Prod.mk.inj (Option.some.inj h)
    exact .here
  | cons i is ih =>
    simp only [wayTo?, Option.bind_eq_bind, Option.bind_eq_some_iff, Option.pure_def,
      Option.some.injEq, Prod.mk.injEq] at h
    obtain ⟨⟨holder, rest⟩, hrest, part, hpart, rfl, rfl⟩ := h
    exact .step (mem_append_right _ (mem_of_getElem? hpart)) (ih hrest)

/-- A name stands at a place of the tree, without a definition on the way out from it, and passes a
    test. -/
def occursAt (tree : Node) (name : String) (is : List Nat)
    (test : Node → List (Node × Node) → Bool) : Bool :=
  (wayTo? tree is).any fun (n, path) => n.isNamed name && n.evaluated.isEmpty &&
    path.dropLast.all (!·.1.isDefinition) && test n path

theorem exists_occurs {test : Node → List (Node × Node) → Bool}
    (h : occursAt tree name is test = true) : ∃ n path, Occurs tree n name path ∧ test n path = true := by
  rw [occursAt] at h
  cases hway : wayTo? tree is with
  | none => simp [hway] at h
  | some r =>
    obtain ⟨n, path⟩ := r
    simp only [hway, Option.any_some, Bool.and_eq_true, isNamed, beq_iff_eq, List.isEmpty_iff,
      all_eq_true, Bool.not_eq_true'] at h
    obtain ⟨⟨⟨hnamed, hleaf⟩, hinside⟩, htest⟩ := h
    exact ⟨n, path, ⟨path_of_wayTo? hway, hnamed, hleaf, hinside⟩, htest⟩

/-- The program of a function that assigns to `x` and then goes on with the given statements. -/
def assigning (statements : List Node) : Program :=
  let assign := Node.ofBinary .assign "=" (Node.ident "x")
    (Node.ofCall (Node.ident "Foo") [Node.ofDigits "1"])
  let p := (Emit.alone (Node.ofCall (Node.ident "def")
    [Node.ident "main", Node.make .block none (assign :: statements)])).program
  match p.tree.walk.find? Node.isAssign with
  | some assign => p.addVariable 0 (assign.args.headD default) assign
  | none => p

theorem isLastUse_eq_ok {b : Bool} (h : (p.isLastUse n).toOption = some b) : p.isLastUse n = .ok b := by
  cases hlast : p.isLastUse n with
  | error failure => simp [hlast, Except.toOption] at h
  | ok c => simpa [hlast, Except.toOption] using h

/-- The program of `def (main: x = Foo(1), g(x), if (c: g(x)))`. -/
def branchUse : Program :=
  let use := Node.ofCall (Node.ident "g") [Node.ident "x"]
  assigning [use, Node.ofCall (Node.ident "if") [Node.ident "c", Node.make .block none [use]]]

/-- The use in the branch is the last one in every trace. -/
theorem not_followed_branchUse : ∃ n path, branchUse.Holds branchUse.tree ∧
    branchUse.tree.Labelled ∧ Occurs branchUse.tree n "x" path ∧ branchUse.isLastUse n = .ok true ∧
      ∀ t ∈ branchUse.tree.traces (branchUse.outlives n) "x", ¬Followed n t := by
  have hholds : branchUse.Holds branchUse.tree := holds_iff_map_eq.mpr ⟨rfl, rfl⟩
  have hlabels : branchUse.tree.Labelled := by
    unfold Labelled
    decide +kernel
  have hplace : occursAt branchUse.tree "x" [0, 0, 1, 2, 1] (fun n path =>
      (branchUse.isLastUse n).toOption == some true &&
        path.all fun level => !isExposed (branchUse.outlives n) "x" level) = true := by
    decide +kernel
  obtain ⟨n, path, hn, htest⟩ := exists_occurs hplace
  rw [Bool.and_eq_true, beq_iff_eq, List.all_eq_true] at htest
  have hlast := isLastUse_eq_ok htest.1
  refine ⟨n, path, hholds, hlabels, hn, hlast, (not_followed_iff hholds hlabels hn hlast).mpr ?_⟩
  intro level hlevel _
  simpa using htest.2 level hlevel

/-- The program of `def (main: x = Foo(1), while (True: g(x)))`. -/
def loopUse : Program :=
  assigning [Node.ofCall (Node.ident "while") [Node.ident "True",
    Node.make .block none [Node.ofCall (Node.ident "g") [Node.ident "x"]]]]

/-- The use in the loop is taken for the last one, but the next round comes after it. -/
theorem followed_loopUse : ∃ n path, loopUse.Holds loopUse.tree ∧ loopUse.tree.Labelled ∧
    Occurs loopUse.tree n "x" path ∧ loopUse.isLastUse n = .ok true ∧
      ∃ t ∈ loopUse.tree.traces (loopUse.outlives n) "x", Followed n t := by
  have hlabels : loopUse.tree.Labelled := by
    unfold Labelled
    decide +kernel
  have hplace : occursAt loopUse.tree "x" [0, 0, 1, 1, 1] (fun n path =>
      (loopUse.isLastUse n).toOption == some true &&
        path.any fun level => isExposed (loopUse.outlives n) "x" level) = true := by
    decide +kernel
  obtain ⟨n, path, hn, htest⟩ := exists_occurs hplace
  rw [Bool.and_eq_true, beq_iff_eq, List.any_eq_true] at htest
  exact ⟨n, path, holds_iff_map_eq.mpr ⟨rfl, rfl⟩, hlabels, hn, isLastUse_eq_ok htest.1,
    (continues_iff_isExposed hlabels hn).mpr htest.2⟩

end Cppward.Analysis.Program
