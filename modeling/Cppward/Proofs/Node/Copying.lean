import Cppward.Proofs.Analysis.Bounds
import Cppward.Proofs.Emit.Run

namespace Cppward.Node

open List

/-!
# What a copy keeps

* `copy_eq_self_iff` — a copy always has the kinds, offsets and shape of the tree; it is the whole tree
  exactly if nothing but names has declared types, and nothing is marked.
-/

/-- What a copy keeps of a node: where it was read, what it is, and which parts it has. -/
def frame (n : Node) : Info × Kind × Bool × Nat :=
  (n.info, n.kind.unmarked, n.func.isSome, n.args.length)

theorem unmarked_unmarked (kind : Kind) : kind.unmarked.unmarked = kind.unmarked := by
  cases kind with
  | binary cls op => cases cls <;> rfl
  | _ => rfl

theorem searched_copy {n : Node} (h : n.isIdent = false) : n.copy.searched = n.searched.map copy := by
  rw [copy_eq, h]
  simp [searched, Option.toList_map]

theorem copy_eq_self {n : Node} (h : n.isIdent = false) : n.copy = n ↔
    (n.type = none ∧ n.kind.unmarked = n.kind) ∧ ∀ a ∈ n.searched, a.copy = a := by
  have hargs : n.args.map copy = n.args ↔ ∀ a ∈ n.args, a.copy = a := by
    simpa using map_inj_left (l := n.args) (f := copy) (g := fun a => a)
  rw [copy_eq, h, searched]
  obtain ⟨info, kind, func, args, type⟩ := n
  cases func <;> simp_all [or_imp, forall_and] <;> tauto

/-- **Copies.**  A copy agrees with the tree in all nodes that a search meets, but for declared types
    and marks.  These agree as well exactly if no node other than a name has any. -/
theorem copy_eq_self_iff (n : Node) : n.copy.inOrder.map frame = n.inOrder.map frame ∧
    (n.copy = n ↔ ∀ m ∈ n.unstopped isIdent, m.type = none ∧ m.kind.unmarked = m.kind) := by
  induction n using searchedInduction with
  | step n ih =>
    cases hn : n.isIdent with
    | true =>
      rw [copy_eq, if_pos hn, unstopped_eq, if_pos hn]
      simp
    | false =>
      constructor
      · have hframe : n.copy.frame = n.frame := by
          rw [copy_eq, hn]
          simp [frame, unmarked_unmarked]
        rw [inOrder_eq, inOrder_eq n, map_cons, map_cons, hframe, searched_copy hn,
          map_flatMap, map_flatMap, flatMap_map]
        exact congrArg _ (flatMap_congr fun a ha => (ih a ha).1)
      · rw [copy_eq_self hn, unstopped_eq, hn, if_neg Bool.false_ne_true, forall_mem_cons,
          forall_mem_flatMap]
        exact and_congr_right fun _ => forall₂_congr fun a ha => (ih a ha).2

/-- The tree of `[1]: int`: a list with a declared type. -/
def typedList : Node := { make .list none [ofDigits "1"] with type := some (ident "int") }

open Emit in
/-- A copied list is generated without its declared type. -/
theorem emitted_typedList_copy :
    (((emitter 4).node (alone typedList).program.tree 0 (alone typedList)).toOption.map Prod.fst,
      ((emitter 4).node (alone typedList.copy).program.tree 0 (alone typedList.copy)).toOption.map
        Prod.fst) = (some "std::vector<int>\x7b1\x7d", some "std::vector \x7b1\x7d") := by
  decide +kernel

end Cppward.Node
