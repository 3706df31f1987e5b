import Cppward.Proofs.Analysis.Holding
import Cppward.Proofs.Node.Labelling

namespace Cppward.Analysis

open List Node

/-!
# The tables of a tree

* `getElem?_foldl_set` — a table that is filled from a list.
* `Program.holds_refresh` — where the labels of a tree differ, its tables know the tree.
-/

/-! ### Filling a table -/

section Filling

variable {α β : Type} (key : α → Nat) (value : α → β)

theorem size_foldl_set (xs : List α) (table : Array β) :
    (xs.foldl (fun table x => table.setIfInBounds (key x) (value x)) table).size = table.size := by
  induction xs generalizing table with
  | nil => rfl
  | cons x xs ih => rw [foldl_cons, ih, Array.size_setIfInBounds]

theorem getElem?_foldl_set_of_not_mem {xs : List α} {i : Nat} (hi : i ∉ xs.map key)
    (table : Array β) :
    (xs.foldl (fun table x => table.setIfInBounds (key x) (value x)) table)[i]? = table[i]? := by
  induction xs generalizing table with
  | nil => rfl
  | cons x xs ih =>
    rw [map_cons, mem_cons, not_or] at hi
    rw [foldl_cons, ih hi.2, Array.getElem?_setIfInBounds_ne (Ne.symm hi.1)]

theorem getElem?_foldl_set_cons {x : α} {xs : List α} (hx : key x ∉ xs.map key) (table : Array β)
    (hlt : key x < table.size) :
    ((x :: xs).foldl (fun table x => table.setIfInBounds (key x) (value x)) table)[key x]? =
      some (value x) := by
  rw [foldl_cons, getElem?_foldl_set_of_not_mem key value hx,
    Array.getElem?_setIfInBounds_self_of_lt hlt]

theorem getElem?_foldl_set {xs : List α} (hnodup : (xs.map key).Nodup) {x : α} (hx : x ∈ xs)
    (table : Array β) (hlt : key x < table.size) :
    (xs.foldl (fun table x => table.setIfInBounds (key x) (value x)) table)[key x]? =
      some (value x) := by
  induction xs generalizing table with
  | nil => cases hx
  | cons y xs ih =>
    rw [map_cons, nodup_cons] at hnodup
    rcases mem_cons.mp hx with rfl | hx
    · exact getElem?_foldl_set_cons key value hnodup.1 table hlt
    · rw [foldl_cons]
      exact ih hnodup.2 hx _ (by rwa [Array.size_setIfInBounds])

end Filling

/-! ### Holders -/

section Holders

theorem perm_parts (n : Node) : (n.args ++ n.func.toList ++ n.type.toList).Perm n.parts :=
  List.Perm.append_right _ perm_append_comm

/-- All nodes of a tree but the root are part of some node of it. -/
theorem walk_perm_parts (n : Node) : n.walk.Perm (n :: n.walk.flatMap parts) := by
  induction n using partsInduction with
  | step n ih =>
    rw [walk_eq, flatMap_cons, flatMap_assoc]
    refine List.Perm.cons n ?_
    have hsplit : (n.parts.flatMap walk).Perm
        (n.parts.flatMap fun a => [a] ++ a.walk.flatMap parts) := List.Perm.flatMap_left _ ih
    have hmove := (flatMap_append_perm n.parts (fun a => [a])
      fun a => a.walk.flatMap parts).symm
    rw [flatMap_singleton'] at hmove
    exact hsplit.trans hmove

theorem parentsOf_eq (tree : Node) (size : Nat) : Program.parentsOf tree size =
    (tree.walk.flatMap fun n => (n.args ++ n.func.toList ++ n.type.toList).map fun a => (a, n)).foldl
      (fun table x => table.setIfInBounds x.1.id (some x.2.id)) (Array.replicate size none) := by
  rw [Program.parentsOf, foldl_flatMap]
  simp only [foldl_map]

theorem nodup_holders {tree : Node} (h : tree.Labelled) :
    ((tree.walk.flatMap fun n =>
      (n.args ++ n.func.toList ++ n.type.toList).map fun a => (a, n)).map fun x => x.1.id).Nodup := by
  have hperm : ((tree.walk.flatMap fun n =>
      (n.args ++ n.func.toList ++ n.type.toList).map fun a => (a, n)).map fun x => x.1.id).Perm
        ((tree.walk.flatMap parts).map Node.id) := by
    rw [map_flatMap, map_flatMap]
    refine List.Perm.flatMap_left _ fun n _ => ?_
    rw [map_map]
    exact (perm_parts n).map _
  have hwalk := ((walk_perm_parts tree).map Node.id).nodup_iff.mp h
  rw [map_cons, nodup_cons] at hwalk
  exact hperm.nodup_iff.mpr hwalk.2

end Holders

/-! ### The tables of a labelled tree -/

namespace Program

/-- All nodes of the tree have labels, which differ and are in the range of the tables. -/
structure Numbers (p : Program) (n : Node) : Prop where
  labelled : n.Labelled
  ne_zero : ∀ m ∈ n.walk, m.id ≠ 0
  lt_size : ∀ m ∈ n.walk, m.id < p.nodes.size

section Refresh

variable {p : Program} {tree : Node}

theorem numbers_label {tree : Node} {next : Nat} (hnext : 0 < next) (hnodup : tree.labels.Nodup)
    (hlt : ∀ l ∈ tree.labels, l < next) :
    (tree.label next).1.Labelled ∧ (∀ m ∈ (tree.label next).1.walk, m.id ≠ 0) ∧
      ∀ m ∈ (tree.label next).1.walk, m.id < (tree.label next).2 := by
  have hlabels := labels_label tree next hnext
  have hne := id_ne_zero_of_mem_walk_label tree next hnext
  have heq := labels_eq_map hne
  refine ⟨?_, hne, fun m hm => ?_⟩
  · have hnew := hlabels.nodup hnodup hlt
    rwa [heq] at hnew
  · have hmem : m.id ∈ (tree.label next).1.labels := by
      rw [heq]
      exact mem_map_of_mem hm
    rcases hlabels.mem hmem with hold | hnew
    · exact Nat.lt_of_lt_of_le (hlt _ hold) hlabels.1
    · exact hnew.2

theorem root_refresh : (p.refresh tree).root = (tree.label (max 1 p.nodes.size)).1.id := rfl

theorem nodes_refresh : (p.refresh tree).nodes =
    (tree.label (max 1 p.nodes.size)).1.walk.foldl (fun table n => table.setIfInBounds n.id n)
      (Array.replicate (tree.label (max 1 p.nodes.size)).2 default) := rfl

theorem parents_refresh : (p.refresh tree).parents =
    parentsOf (tree.label (max 1 p.nodes.size)).1 (tree.label (max 1 p.nodes.size)).2 := rfl

theorem size_nodes_refresh :
    (p.refresh tree).nodes.size = (tree.label (max 1 p.nodes.size)).2 := by
  rw [nodes_refresh, size_foldl_set, Array.size_replicate]

theorem size_parents_refresh : (p.refresh tree).parents.size = (p.refresh tree).nodes.size := by
  rw [size_nodes_refresh, parents_refresh, parentsOf_eq, size_foldl_set, Array.size_replicate]

/-- The tables have the nodes of the tree under their labels, and for every part the label of the node
    that holds it. -/
def Links (p : Program) (n : Node) : Prop := ∀ m ∈ n.walk,
  p.node? m.id = some m ∧ ∀ part ∈ m.parts, p.parentLabel? part = some m.id

theorem Links.holds (h : p.Links tree) : p.Holds tree := by
  intro m hm
  refine ⟨by rw [current, (h m hm).1, Option.getD_some], fun part hpart => ?_⟩
  rw [parent?, (h m hm).2 part hpart, Option.bind_some, (h m hm).1]

/-- What is known about the tables of a tree whose labels differ. -/
structure Knows (p : Program) (n : Node) : Prop where
  numbers : p.Numbers n
  links : p.Links n
  top : p.parentLabel? n = none
  size : p.parents.size = p.nodes.size

theorem not_mem_of_rootAlone {t : Node} (h : t.RootAlone) (hne : t.id ≠ 0) :
    t.id ∉ (t.parts.flatMap walk).map Node.id := by
  intro hmem
  obtain ⟨m, hm, hid⟩ := mem_map.mp hmem
  obtain ⟨a, ha, hm⟩ := mem_flatMap.mp hm
  exact h a ha (mem_labels.mpr ⟨hne, m, hm, hid⟩)

theorem tree_refresh (h : tree.RootAlone) (hlt : ∀ l ∈ tree.labels, l < max 1 p.nodes.size) :
    (p.refresh tree).tree = (tree.label (max 1 p.nodes.size)).1 := by
  have hpos : 0 < max 1 p.nodes.size := Nat.le_max_left 1 p.nodes.size
  have hne := id_ne_zero_of_mem_walk_label tree _ hpos _ (self_mem_walk _)
  have hlabels := labels_label tree _ hpos
  have hsize : (tree.label (max 1 p.nodes.size)).1.id < (tree.label (max 1 p.nodes.size)).2 := by
    rcases hlabels.mem (mem_labels.mpr ⟨hne, _, self_mem_walk _, rfl⟩) with hold | hnew
    · exact Nat.lt_of_lt_of_le (hlt _ hold) hlabels.1
    · exact hnew.2
  rw [Program.tree, root_refresh, node?, if_neg (by simpa using hne), nodes_refresh, walk_eq,
    getElem?_foldl_set_cons Node.id (fun n => n) (not_mem_of_rootAlone (h.label hpos hlt) hne) _
      (by simpa using hsize), Option.getD_some]

/-- A refreshed program knows all of its new tree. -/
theorem knows_refresh (hnodup : tree.labels.Nodup)
    (hlt : ∀ l ∈ tree.labels, l < max 1 p.nodes.size) :
    (p.refresh tree).tree = (tree.label (max 1 p.nodes.size)).1 ∧
      (p.refresh tree).Knows (tree.label (max 1 p.nodes.size)).1 := by
  obtain ⟨hlabelled, hne, hsize⟩ := numbers_label (Nat.le_max_left 1 p.nodes.size) hnodup hlt
  generalize htree : (tree.label (max 1 p.nodes.size)).1 = t at hlabelled hne hsize ⊢
  -- labels are distinct, so no later entry overwrites an earlier one
  have hnodes : ∀ m ∈ t.walk, (p.refresh tree).node? m.id = some m := by
    intro m hm
    rw [node?, if_neg (by simpa using hne m hm), nodes_refresh, htree]
    refine getElem?_foldl_set Node.id (fun n => n) hlabelled hm _ ?_
    rw [Array.size_replicate]
    exact hsize m hm
  have hparents : ∀ m ∈ t.walk, ∀ part ∈ m.parts,
      (p.refresh tree).parentLabel? part = some m.id := by
    intro m hm part hpart
    have hmem : part ∈ t.walk := mem_walk_trans hm (mem_walk_of_mem_parts hpart part.self_mem_walk)
    rw [parentLabel?, if_neg (by simpa using hne part hmem), parents_refresh, parentsOf_eq, htree]
    have hpair : (part, m) ∈ t.walk.flatMap fun n =>
        (n.args ++ n.func.toList ++ n.type.toList).map fun a => (a, n) := by
      refine mem_flatMap.mpr ⟨m, hm, mem_map.mpr ⟨part, ?_, rfl⟩⟩
      exact (perm_parts m).mem_iff.mpr hpart
    have hentry := getElem?_foldl_set (fun x : Node × Node => x.1.id) (fun x => some x.2.id)
      (nodup_holders hlabelled) hpair (Array.replicate (tree.label (max 1 p.nodes.size)).2 none)
      (by simpa using hsize part hmem)
    rw [hentry]
    rfl
  have hroot : (p.refresh tree).root = t.id := by rw [root_refresh, htree]
  refine ⟨?_, ⟨hlabelled, hne, ?_⟩, fun m hm => ⟨hnodes m hm, hparents m hm⟩, ?_,
    size_parents_refresh⟩
  · rw [Program.tree, hroot, hnodes t t.self_mem_walk, Option.getD_some]
  · rw [size_nodes_refresh]
    exact hsize
  · -- the root is no part of any node
    have hwalk := ((walk_perm_parts t).map Node.id).nodup_iff.mp hlabelled
    rw [map_cons, nodup_cons] at hwalk
    have hnot : t.id ∉ (t.walk.flatMap fun n => (n.args ++ n.func.toList ++ n.type.toList).map
        fun a => (a, n)).map fun x => x.1.id := by
      intro hmem
      simp only [mem_map, mem_flatMap] at hmem
      obtain ⟨_, ⟨m, hm, part, hpart, rfl⟩, heq⟩ := hmem
      refine hwalk.1 (mem_map.mpr ⟨part, mem_flatMap.mpr ⟨m, hm, ?_⟩, heq⟩)
      exact (perm_parts m).mem_iff.mp hpart
    rw [parentLabel?, if_neg (by simpa using hne t t.self_mem_walk), parents_refresh, parentsOf_eq,
      htree, getElem?_foldl_set_of_not_mem _ _ hnot]
    rw [Array.getElem?_replicate]
    split <;> rfl

end Refresh

end Program

end Cppward.Analysis
