import Cppward.Node.Walk
import Cppward.Proofs.Node.Likeness
import Mathlib.Data.List.Nodup
import Mathlib.Data.List.Pairwise

namespace Cppward.Node

open List

/-!
# Parts of a tree

* `parts` — what a node consists of: the applied node, the arguments, the declared type.
* `walk_eq` — a walk takes a node and then walks over its parts.
* `Labelled` — the nodes of a tree have labels of their own, so that a label is found in one part only
  (`Labelled.pairwise`).
-/

variable {m : Node} {P : Node → Prop} {kind : Kind} {func : Option Node} {args : List Node}
  {loc : Nat}

def parts (n : Node) : List Node := n.func.toList ++ n.args ++ n.type.toList

theorem func_mem_parts {n f : Node} (h : n.func = some f) : f ∈ n.parts := by
  simp [parts, h]

theorem arg_mem_parts {n a : Node} (h : a ∈ n.args) : a ∈ n.parts := by
  simp [parts, h]

theorem type_mem_parts {n t : Node} (h : n.type = some t) : t ∈ n.parts := by
  simp [parts, h]

theorem walk_eq (n : Node) : n.walk = n :: n.parts.flatMap walk := by
  have hlist : ∀ ns : List Node, walkList ns = ns.flatMap walk :=
    eq_flatMap rfl fun _ _ => rfl
  have hoption : ∀ o : Option Node, walkOption o = o.toList.flatMap walk := by
    intro o
    cases o <;> simp [walkOption]
  obtain ⟨info, kind, func, args, type⟩ := n
  rw [walk, parts, hlist, hoption, hoption]
  simp

theorem self_mem_walk (n : Node) : n ∈ n.walk := by
  rw [walk_eq]
  exact mem_cons_self

theorem mem_walk_of_mem_parts {n part : Node} (hpart : part ∈ n.parts) (hm : m ∈ part.walk) :
    m ∈ n.walk := by
  rw [walk_eq]
  exact mem_cons_of_mem _ (mem_flatMap.mpr ⟨part, hpart, hm⟩)

theorem partsInduction {motive : Node → Prop}
    (step : ∀ n : Node, (∀ a ∈ n.parts, motive a) → motive n) (n : Node) : motive n := by
  induction n using Node.induction with
  | step n ihfunc ihargs ihtype =>
    refine step n fun a ha => ?_
    simp only [parts, mem_append, Option.mem_toList] at ha
    rcases ha with (ha | ha) | ha
    · exact ihfunc a ha
    · exact ihargs a ha
    · exact ihtype a ha

theorem mem_walk_trans {n c : Node} (hm : m ∈ n.walk) (hc : c ∈ m.walk) : c ∈ n.walk := by
  induction n using partsInduction with
  | step n ih =>
    rw [walk_eq] at hm
    rcases mem_cons.mp hm with rfl | hm
    · exact hc
    · obtain ⟨part, hpart, hm⟩ := mem_flatMap.mp hm
      exact mem_walk_of_mem_parts hpart (ih part hpart hm)

/-- What holds for all nodes of a tree, the parts by the fields they stand in. -/
theorem forall_mem_walk_iff {n : Node} : (∀ m ∈ n.walk, P m) ↔
    P n ∧ (∀ f ∈ n.func, ∀ m ∈ f.walk, P m) ∧ (∀ a ∈ n.args, ∀ m ∈ a.walk, P m) ∧
      ∀ t ∈ n.type, ∀ m ∈ t.walk, P m := by
  rw [walk_eq, forall_mem_cons]
  refine and_congr_right fun _ => ?_
  simp only [mem_flatMap, parts, mem_append, Option.mem_toList]
  constructor
  · intro h
    exact ⟨fun f hf m hm => h m ⟨f, .inl (.inl hf), hm⟩,
      fun a ha m hm => h m ⟨a, .inl (.inr ha), hm⟩, fun t ht m hm => h m ⟨t, .inr ht, hm⟩⟩
  · rintro ⟨hfunc, hargs, htype⟩ m ⟨a, (ha | ha) | ha, hm⟩
    · exact hfunc a ha m hm
    · exact hargs a ha m hm
    · exact htype a ha m hm

theorem forall_mem_walk_make
    : (∀ m ∈ (make kind func args loc).walk, P m) ↔ P (make kind func args loc) ∧
      (∀ f ∈ func, ∀ m ∈ f.walk, P m) ∧ ∀ a ∈ args, ∀ m ∈ a.walk, P m := by
  rw [forall_mem_walk_iff]
  simp [make]

theorem id_make : (make kind func args loc).id = 0 := rfl

theorem size_le_sizeList {a : Node} (h : a ∈ args) : a.size ≤ sizeList args := by
  induction args with
  | nil => cases h
  | cons b args ih =>
    rw [sizeList]
    rcases mem_cons.mp h with rfl | h
    · omega
    · have := ih h
      omega

theorem size_lt_of_mem_parts {n part : Node} (h : part ∈ n.parts) : part.size < n.size := by
  have hoption : ∀ o : Option Node, part ∈ o → part.size = sizeOption o := by
    rintro _ ⟨⟩
    rfl
  obtain ⟨info, kind, func, args, type⟩ := n
  simp only [parts, mem_append, Option.mem_toList] at h
  rw [size]
  rcases h with (h | h) | h
  · have := hoption func h
    omega
  · have := size_le_sizeList h
    omega
  · have := hoption type h
    omega

theorem size_le_of_mem_walk {n : Node} (hm : m ∈ n.walk) : m.size ≤ n.size := by
  induction n using partsInduction with
  | step n ih =>
    rw [walk_eq] at hm
    rcases mem_cons.mp hm with rfl | hm
    · exact Nat.le_refl _
    · obtain ⟨part, hpart, hm⟩ := mem_flatMap.mp hm
      exact Nat.le_of_lt (Nat.lt_of_le_of_lt (ih part hpart hm) (size_lt_of_mem_parts hpart))

/-- No two nodes of the tree have one label. -/
def Labelled (n : Node) : Prop := (n.walk.map Node.id).Nodup

namespace Labelled

variable {n a b x y : Node}

/-- The label of a node is not found in its parts, and every part is labelled, with labels that the
    other parts do not have. -/
theorem of_parts (h : n.Labelled) : (∀ a ∈ n.parts, ∀ x ∈ a.walk, x.id ≠ n.id) ∧
    (∀ a ∈ n.parts, a.Labelled) ∧
      n.parts.Pairwise fun a b => ∀ x ∈ a.walk, ∀ y ∈ b.walk, x.id ≠ y.id := by
  rw [Labelled, walk_eq, map_cons, nodup_cons, map_flatMap, nodup_flatMap] at h
  obtain ⟨hroot, hparts, hpairwise⟩ := h
  refine ⟨fun a ha x hx hid => hroot ?_, hparts, hpairwise.imp fun {a b} hab x hx y hy hid => ?_⟩
  · exact mem_flatMap.mpr ⟨a, ha, mem_map.mpr ⟨x, hx, hid⟩⟩
  · exact hab (mem_map_of_mem hx) (mem_map.mpr ⟨y, hy, hid.symm⟩)

theorem part (h : n.Labelled) (ha : a ∈ n.parts) : a.Labelled := h.of_parts.2.1 a ha

theorem id_ne (h : n.Labelled) (ha : a ∈ n.parts) (hx : x ∈ a.walk) : x.id ≠ n.id :=
  h.of_parts.1 a ha x hx

theorem pairwise (h : n.Labelled) :
    n.parts.Pairwise fun a b => ∀ x ∈ a.walk, ∀ y ∈ b.walk, x.id ≠ y.id := h.of_parts.2.2

theorem part_unique (h : n.Labelled) (ha : a ∈ n.parts) (hb : b ∈ n.parts) (hx : x ∈ a.walk)
    (hy : y ∈ b.walk) (hid : x.id = y.id) : a = b := by
  by_contra hne
  have hsymm : Std.Symm fun a b : Node => ∀ x ∈ a.walk, ∀ y ∈ b.walk, x.id ≠ y.id :=
    ⟨fun _ _ hab x hx y hy => (hab y hy x hx).symm⟩
  exact h.pairwise.forall ha hb hne x hx y hy hid

end Labelled

end Cppward.Node
