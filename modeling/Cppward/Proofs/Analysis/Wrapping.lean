import Cppward.Proofs.Analysis.Placing

namespace Cppward.Analysis

open Node Stateful List
open Option (mem_toList bind_some getD_some)
open Program (parentLabel? setParent setScope current parent?)

/-!
# Rewritten nodes

The checks wrap containers and build branches for unsafe code.

* `secures_wrapIterable` — a container is wrapped together with a copy of it,
* `expandUnsafe_spec` — a branch takes the place of a node.
-/

variable {statements ns' : List Node} {container copy m iterable e : Node} {k k' depth : Nat}

section Nodes

variable {plain : Prop} {K : Node → Node → Prop} {p q : Program} {n : Node} {ns : List Node}
  {above : List Nat}

/-! ### Wrapped containers -/

theorem Place.pos (h : Place p [n] above) : 0 < p.nodes.size :=
  Nat.zero_lt_of_lt (h.lt_size_self _ h.mem_labels)

/-- What is known when a copy of a container and the tree around both have been added to the program: the
    old entries stay as they are, and labels outside of the container are new. -/
structure Wrapping (plain : Prop) (p : Program) (iterable copy wrapped : Node) (p₁ p₂ : Program) :
    Prop where
  le_copy : p.nodes.size ≤ p₁.nodes.size
  sizes : p₂.parents.size = p₂.nodes.size
  nodes : ∀ l < p.nodes.size, p₂.nodes[l]? = p.nodes[l]?
  parents : ∀ l < p.nodes.size, p₂.parents[l]? = p.parents[l]?
  copy_id : copy.id = p.nodes.size
  wrapped_id : wrapped.id = p₁.nodes.size
  wrapped_eq : wrapped = wrapContainer iterable p.nodes.size p₁.nodes.size
  ne_zero : ∀ m ∈ wrapped.walk, m.id ≠ 0
  spread : Spread plain iterable.labels wrapped.labels p.nodes.size p₂.nodes.size

/-- Adopting the copy, then the tree around both, is a wrapping. -/
theorem wrapping_of_adopt {wrapped : Node} {p₁ p₂ : Program}
    (hsizes : p.parents.size = p.nodes.size) (hpos : 0 < p.nodes.size)
    (huntyped : plain → Untyped iterable.copy) (hcopied : p.adopt iterable.copy.unlabel = (copy, p₁))
    (hbanned : p₁.adopt (banReferences iterable copy) = (wrapped, p₂)) :
    Wrapping plain p iterable copy wrapped p₁ p₂ := by
  -- the copy
  obtain ⟨hcopy, hsize₁, hsizes₁, hnodes₁, hparents₁, _⟩ := adopt_spec hcopied hsizes hpos
  have hcopyLabels := labels_label iterable.copy.unlabel p.nodes.size hpos
  rw [← hcopy, ← hsize₁] at hcopyLabels
  have hlt {l : Nat} (hl : l < p.nodes.size) := Nat.lt_of_lt_of_le hl hcopyLabels.1
  -- what it is wrapped in
  have hpos₁ : 0 < p₁.nodes.size := hlt hpos
  obtain ⟨hwrapped, hsize₂, hsizes₂, hnodes₂, hparents₂, _⟩ := adopt_spec hbanned hsizes₁ hpos₁
  have hwrappedLabels := labels_label (banReferences iterable copy) p₁.nodes.size hpos₁
  rw [← hwrapped, ← hsize₂, labels_banReferences] at hwrappedLabels
  refine
    { le_copy := hcopyLabels.1
      sizes := hsizes₂
      nodes := fun l hl => (hnodes₂ l (hlt hl)).trans (hnodes₁ l hl)
      parents := fun l hl => (hparents₂ l (hlt hl)).trans (hparents₁ l hl)
      copy_id := by
        rw [hcopy, id_label, unlabel_eq]
        rfl
      wrapped_id := by
        rw [hwrapped, id_label]
        rfl
      wrapped_eq := by
        rw [hwrapped, hcopy]
        rfl
      ne_zero := by
        rw [hwrapped]
        exact id_ne_zero_of_mem_walk_label (banReferences iterable copy) _ hpos₁
      spread := ⟨Nat.le_trans hcopyLabels.1 hwrappedLabels.1, fun l hl => ?_, fun hplain => ?_⟩ }
  · -- a label is one of the wrapping tree, one of the copy, or one of the container
    have := hcopyLabels.1
    have := hwrappedLabels.1
    rcases hwrappedLabels.mem hl with hl | hl
    · rcases mem_append.mp hl with hl | hl
      · rcases hcopyLabels.mem hl with hl | hl
        · exact .inl (labels_unlabel_copy_subset iterable hl)
        · omega
      · exact .inl hl
    · omega
  · rw [(unlabel_spec _ (huntyped hplain)).1] at hcopyLabels
    exact (hcopyLabels.drawn.append Drawn.refl).trans hwrappedLabels.drawn

/-- The links concern the container and new nodes. -/
theorem Wrapping.frame {wrapped : Node} {p₁ p₂ : Program}
    (h : Wrapping plain p iterable copy wrapped p₁ p₂) (hground : Ground p above) :
    Frame p [iterable.id] above (linkWrapped p₂ iterable copy wrapped) := by
  have hle := h.le_copy
  have hcopy := h.copy_id
  have hwrapped := h.wrapped_id
  refine ⟨h.spread.le, ?_, fun l hl _ _ => ?_, fun l hl hl' => ?_, fun l hl e he => ?_⟩
  · simpa [linkWrapped, setParent, setScope] using h.sizes
  · rw [nodes_linkWrapped, h.nodes l hl]
  · have hnot : iterable.id ≠ l := fun heq => hl' (mem_singleton.mpr heq.symm)
    simp only [linkWrapped, setParent, setScope]
    rw [Array.getElem?_setIfInBounds_ne (by omega), Array.getElem?_setIfInBounds_ne hnot,
      Array.getElem?_setIfInBounds_ne (by omega), h.parents l hl]
  · refine ⟨e, ?_, Keeps.refl⟩
    rw [nodes_linkWrapped, h.nodes l (hground.lt_size hl).2]
    exact he

/-- The head of a loop is not its container. -/
theorem Place.id_ne_of_mem_parts {part : Node} (hplace : Place p [n] above) (hpart : part ∈ n.parts) :
    n.id ≠ part.id := by
  intro heq
  have hne := hplace.self_ne_zero
  have hnodup := hplace.nodup
  rw [flatMap_singleton, labels_eq, ownLabel, if_neg (hne n n.self_mem_walk), nodup_append] at hnodup
  refine hnodup.2.2 _ mem_cons_self part.id ?_ heq
  exact id_mem_labels (fun a ha m hm => hne m (mem_walk_of_mem_parts ha hm)) hpart

/-- A container is wrapped together with a copy, which has new labels outside of declared types. -/
theorem secures_wrapIterable (hK : Respected plain K) {head target r : Node}
    (hplace : Place p [head] above) (hargs : head.args = [target, iterable])
    (huntyped : plain → Untyped iterable.copy)
    (hrun : (wrapIterable head target iterable).run p = .ok (r, q)) :
    Secures plain K p [head] above [r] q ∧ r.id = head.id ∧ r.RootAlone := by
  obtain ⟨copy, p₁, wrapped, p₂, hcopied, hbanned, rfl, rfl⟩ := wrapIterable_eq_ok hrun
  have hne := hplace.self_ne_zero
  have hiterable : iterable ∈ head.parts := arg_mem_parts (by simp [hargs])
  have hwrapping := wrapping_of_adopt hplace.ground.sizes hplace.pos huntyped hcopied hbanned
  have hlinked := hwrapping.frame hplace.ground
  have hiterableLabel : iterable.id ∈ head.labels :=
    mem_labels_of_mem_walk hne (mem_walk_of_mem_parts hiterable iterable.self_mem_walk)
  have hheadLabel := hplace.mem_labels
  have hground : Ground (linkWrapped p₂ iterable copy wrapped) above := by
    refine hlinked.ground hplace.ground fun l hl hl' => ?_
    rw [mem_singleton] at hl'
    subst hl'
    exact hplace.apart _ (by simpa using hiterableLabel) hl
  have hup : ∀ l, (linkWrapped p₂ iterable copy wrapped).parentLabel?
      { head with args := [target, wrapped] } = some l → l ∈ above := by
    intro l hl
    have hsame := hlinked.parentLabel? (n := { head with args := [target, wrapped] })
      (hplace.lt_size_self _ hheadLabel)
      (fun hmem => hplace.id_ne_of_mem_parts hiterable (mem_singleton.mp hmem))
    rw [hsame] at hl
    exact hplace.up head mem_cons_self l hl
  obtain ⟨hupdate, hentry, hsize, _⟩ := frame_update hground (e := { head with args := [target, wrapped] })
    (hne head head.self_mem_walk)
    (Nat.lt_of_lt_of_le (hplace.lt_size_self _ hheadLabel) hlinked.size_le)
    (hplace.apart head.id (by simpa using hheadLabel)) hup
  have hparts : Spread plain (head.parts.flatMap labels)
      ((parts { head with args := [target, wrapped] }).flatMap labels) p.nodes.size p₂.nodes.size := by
    refine spread_parts ?_ Spread.refl
    rw [hargs]
    simpa using Spread.refl.append hwrapping.spread
  refine ⟨⟨?_, forall_mem_singleton.mpr hentry, ?_, forall_mem_singleton.mpr ?_,
    forall₂_cons.mpr ⟨?_, .nil⟩⟩, rfl, hplace.rootAlone rfl hparts⟩
  · rw [flatMap_singleton]
    refine (hlinked.mono ?_ (List.Subset.refl _) (subset_append_right _ _)).trans
      (hupdate.mono ?_ (List.Subset.refl _) (subset_append_right _ _))
    · exact cons_subset.mpr ⟨hiterableLabel, nil_subset _⟩
    · exact cons_subset.mpr ⟨hheadLabel, nil_subset _⟩
  · rw [flatMap_singleton, flatMap_singleton, hsize, nodes_linkWrapped]
    exact spread_node rfl hparts
  · refine ne_zero_parts hne ?_ (fun f hf m hm => hne m (mem_walk_of_mem_parts (func_mem_parts hf) hm))
    refine forall_mem_cons.mpr ⟨fun m hm => ?_, forall_mem_singleton.mpr hwrapping.ne_zero⟩
    exact hne m (mem_walk_of_mem_parts (arg_mem_parts (by simp [hargs])) hm)
  · rw [hwrapping.wrapped_eq]
    exact hK.wrap hargs (fun m hm => hne m (mem_walk_of_mem_parts hiterable hm)) huntyped

/-! ### Branches for unsafe code -/

/-- A tree that is added beside the old ones changes nothing that was there. -/
theorem frame_adopt {tree tree' : Node} (hground : Ground p above) (hpos : 0 < p.nodes.size)
    (h : p.adopt tree = (tree', q)) : Frame p [] above q := by
  obtain ⟨_, hsize, hsizes, hnodes, hparents, _⟩ := adopt_spec h hground.sizes hpos
  refine ⟨?_, hsizes, fun l hl _ _ => hnodes l hl, fun l hl _ => hparents l hl, fun l hl e he => ?_⟩
  · rw [hsize]
    exact (labels_label tree _ hpos).1
  · exact ⟨e, (hnodes l (hground.lt_size hl).2).trans he, Keeps.refl⟩

/-- Expanding `unsafe` changes holders only, and all labels that it adds are new. -/
theorem expandUnsafe_spec {r : Node} (hground : Ground p above) (hpos : 0 < p.nodes.size)
    (hlt : ∀ l ∈ n.labels, l < p.nodes.size) (hne : ∀ m ∈ n.walk, m.id ≠ 0)
    (hentry : p.node? n.id = some n) (hrun : (expandUnsafe n).run p = .ok (r, q)) :
    Frame p [] above q ∧ q.node? r.id = some r ∧
      Drawn n.labels r.labels p.nodes.size q.nodes.size ∧ (∀ m ∈ r.walk, m.id ≠ 0) ∧
        ((r = n ∧ q = p) ∨ n.isCallOf "unsafe" = true ∧ ∃ arg, n.args = [arg] ∧
          r = ((unsafeBranch (branchStatements arg)).label p.nodes.size).1) := by
  rcases expandUnsafe_cases hrun with ⟨rfl, rfl⟩ | ⟨hcall, arg, hargs, hadopt⟩
  · exact ⟨Frame.refl hground.sizes, hentry, Drawn.refl, hne, .inl ⟨rfl, rfl⟩⟩
  · have harg : arg ∈ n.args := by simp [hargs]
    have hlabels : ((branchStatements arg).flatMap labels).Sublist n.labels := by
      have hwhole : arg.labels.Sublist n.labels := by
        rw [labels_eq n]
        exact (sublist_flatten_of_mem (mem_map_of_mem (arg_mem_parts harg))).trans
          (sublist_append_right _ _)
      rw [branchStatements]
      split
      · rw [labels_eq arg, parts, flatMap_append, flatMap_append] at hwhole
        exact (((sublist_append_right _ _).trans (sublist_append_left _ _)).trans
          (sublist_append_right _ _)).trans hwhole
      · rwa [flatMap_singleton]
    rw [← branchStatements] at hadopt
    obtain ⟨hr, hsize, _, _, _, hplaced⟩ := adopt_spec hadopt.symm hground.sizes hpos
    have hdrawn := (labels_label (unsafeBranch (branchStatements arg)) _ hpos).drawn
    have hrne := id_ne_zero_of_mem_walk_label (unsafeBranch (branchStatements arg)) _ hpos
    rw [labels_unsafeBranch] at hplaced hdrawn
    rw [← hr, ← hsize] at hdrawn
    rw [← hr] at hrne
    refine ⟨frame_adopt hground hpos hadopt.symm, ?_, ?_, hrne, .inr ⟨hcall, arg, hargs, hr⟩⟩
    · exact hplaced rfl fun l hl => hlt l (hlabels.subset hl)
    · exact hdrawn.mono hlabels.subperm (List.Subperm.refl _)

end Nodes

end Cppward.Analysis
