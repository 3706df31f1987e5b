import Cppward.Proofs.Analysis.Rewriting
import Cppward.Proofs.Analysis.Tables

namespace Cppward.Analysis

open Node List

/-!
# What a change to a program leaves alone

A changed node is shown to the nodes that hold it, so a change at one place of a tree is seen in the
tables at that place and above it, and nowhere else.

* `Keeps` — two states of a node above a change.
* `Frame` — a program before and after a change.
* `frame_update`, `adopt_spec` — the changes that programs provide.
-/

variable {l : Nat}

/-! ### Nodes above a change -/

/-- The node is the same but for parts with certain labels. -/
structure Keeps (ls : List Nat) (e e' : Node) : Prop where
  info : e'.info = e.info
  kind : e'.kind = e.kind
  func : (∀ f ∈ e.func, f.id ∉ ls) → e'.func = e.func
  args : (∀ a ∈ e.args, a.id ∉ ls) → e'.args = e.args
  type : (∀ t ∈ e.type, t.id ∉ ls) → e'.type = e.type

namespace Keeps

variable {ls ls' : List Nat} {e e' e'' : Node}

theorem refl : Keeps ls e e := ⟨rfl, rfl, fun _ => rfl, fun _ => rfl, fun _ => rfl⟩

theorem mono (h : Keeps ls e e') (hsub : ls ⊆ ls') : Keeps ls' e e' where
  info := h.info
  kind := h.kind
  func := fun hf => h.func fun f hfunc hmem => hf f hfunc (hsub hmem)
  args := fun hf => h.args fun f hfunc hmem => hf f hfunc (hsub hmem)
  type := fun hf => h.type fun f hfunc hmem => hf f hfunc (hsub hmem)

theorem trans (h : Keeps ls e e') (h' : Keeps ls e' e'') : Keeps ls e e'' where
  info := h'.info.trans h.info
  kind := h'.kind.trans h.kind
  func := fun hf => (h'.func (h.func hf ▸ hf)).trans (h.func hf)
  args := fun hf => (h'.args (h.args hf ▸ hf)).trans (h.args hf)
  type := fun hf => (h'.type (h.type hf ▸ hf)).trans (h.type hf)

theorem id (h : Keeps ls e e') : e'.id = e.id := congrArg Info.id h.info

theorem replacePart (e part : Node) : Keeps [part.id] e (e.replacePart part) := by
  have hswap : ∀ m : Node, m.id ∉ [part.id] → (if m.id == part.id then part else m) = m := by
    intro m hm
    rw [if_neg]
    simpa using hm
  refine ⟨rfl, rfl, fun h => ?_, fun h => ?_, fun h => ?_⟩
  · rw [Node.replacePart]
    cases hfunc : e.func with
    | none => rfl
    | some f => exact congrArg some (hswap f (h f hfunc))
  · exact (map_congr_left fun a ha => hswap a (h a ha)).trans (map_id _)
  · rw [Node.replacePart]
    cases htype : e.type with
    | none => rfl
    | some t => exact congrArg some (hswap t (h t htype))

end Keeps

/-! ### Programs -/

/-- The labels `above` are those of nodes that the table has, and with a node of them the node that
    holds it is one of them. -/
structure Ground (p : Program) (above : List Nat) : Prop where
  sizes : p.parents.size = p.nodes.size
  placed : ∀ l ∈ above, ∃ e, p.node? l = some e ∧ e.id = l
  closed : ∀ l ∈ above, ∀ l', p.parents[l]?.join = some l' → l' ∈ above

/-- Between two programs, at most the nodes with labels in `ls`, their holders, and the nodes above
    them were changed. -/
structure Frame (p : Program) (ls above : List Nat) (q : Program) : Prop where
  size_le : p.nodes.size ≤ q.nodes.size
  sizes : q.parents.size = q.nodes.size
  nodes : ∀ l < p.nodes.size, l ∉ ls → l ∉ above → q.nodes[l]? = p.nodes[l]?
  parents : ∀ l < p.nodes.size, l ∉ ls → q.parents[l]? = p.parents[l]?
  above : ∀ l ∈ above, ∀ e, p.nodes[l]? = some e →
    ∃ e', q.nodes[l]? = some e' ∧ Keeps (ls ++ above) e e'

theorem node?_eq_some {p : Program} {e : Node} :
    p.node? l = some e ↔ l ≠ 0 ∧ p.nodes[l]? = some e := by
  rw [Program.node?]
  by_cases h : l = 0 <;> simp [h]

theorem Ground.lt_size {p : Program} {above : List Nat} (h : Ground p above)
    (hl : l ∈ above) : l ≠ 0 ∧ l < p.nodes.size := by
  obtain ⟨e, he, _⟩ := h.placed l hl
  obtain ⟨hzero, he⟩ := node?_eq_some.mp he
  exact ⟨hzero, (Array.getElem?_eq_some_iff.mp he).1⟩

namespace Frame

variable {p q r : Program} {ls ls' above above' : List Nat}

theorem refl (h : p.parents.size = p.nodes.size) : Frame p ls above p where
  size_le := Nat.le_refl _
  sizes := h
  nodes := fun _ _ _ _ => rfl
  parents := fun _ _ _ => rfl
  above := fun _ _ e he => ⟨e, he, Keeps.refl⟩

theorem trans (h : Frame p ls above q) (h' : Frame q ls above r) : Frame p ls above r where
  size_le := Nat.le_trans h.size_le h'.size_le
  sizes := h'.sizes
  nodes := fun l hl hls habove =>
    (h'.nodes l (Nat.lt_of_lt_of_le hl h.size_le) hls habove).trans (h.nodes l hl hls habove)
  parents := fun l hl hls =>
    (h'.parents l (Nat.lt_of_lt_of_le hl h.size_le) hls).trans (h.parents l hl hls)
  above := by
    intro l hl e he
    obtain ⟨e', he', hkeeps⟩ := h.above l hl e he
    obtain ⟨e'', he'', hkeeps'⟩ := h'.above l hl e' he'
    exact ⟨e'', he'', hkeeps.trans hkeeps'⟩

theorem mono (h : Frame p ls above' q) (hls : ls ⊆ ls') (habove : above ⊆ above')
    (habove' : above' ⊆ ls' ++ above) : Frame p ls' above q where
  size_le := h.size_le
  sizes := h.sizes
  nodes := fun l hl hnot hnotabove => h.nodes l hl (fun hmem => hnot (hls hmem)) fun hmem =>
    (mem_append.mp (habove' hmem)).elim hnot hnotabove
  parents := fun l hl hnot => h.parents l hl fun hmem => hnot (hls hmem)
  above := by
    intro l hl e he
    obtain ⟨e', he', hkeeps⟩ := h.above l (habove hl) e he
    refine ⟨e', he', hkeeps.mono ?_⟩
    intro m hm
    rcases mem_append.mp hm with hm | hm
    · exact mem_append_left _ (hls hm)
    · exact habove' hm

theorem node? (h : Frame p ls above q) {e : Node} (he : p.node? l = some e) (hls : l ∉ ls)
    (habove : l ∉ above) : q.node? l = some e := by
  obtain ⟨hzero, he⟩ := node?_eq_some.mp he
  have hlt := (Array.getElem?_eq_some_iff.mp he).1
  exact node?_eq_some.mpr ⟨hzero, (h.nodes l hlt hls habove).trans he⟩

theorem node?_above (h : Frame p ls above q) {e : Node} (he : p.node? l = some e)
    (hl : l ∈ above) : ∃ e', q.node? l = some e' ∧ Keeps (ls ++ above) e e' := by
  obtain ⟨hzero, he⟩ := node?_eq_some.mp he
  obtain ⟨e', he', hkeeps⟩ := h.above l hl e he
  exact ⟨e', node?_eq_some.mpr ⟨hzero, he'⟩, hkeeps⟩

theorem parentLabel? (h : Frame p ls above q) {n : Node} (hlt : n.id < p.nodes.size)
    (hls : n.id ∉ ls) : q.parentLabel? n = p.parentLabel? n := by
  rw [Program.parentLabel?, Program.parentLabel?, h.parents n.id hlt hls]

theorem ground (h : Frame p ls above q) (hground : Ground p above) (hapart : ∀ l ∈ above, l ∉ ls) :
    Ground q above where
  sizes := h.sizes
  placed := by
    intro l hl
    obtain ⟨e, he, hid⟩ := hground.placed l hl
    obtain ⟨e', he', hkeeps⟩ := h.node?_above he hl
    exact ⟨e', he', hkeeps.id.trans hid⟩
  closed := by
    intro l hl l' hl'
    rw [h.parents l (hground.lt_size hl).2 (hapart l hl)] at hl'
    exact hground.closed l hl l' hl'

end Frame

/-! ### Updates -/

section Updates

variable {p : Program} {above : List Nat}

/-- A node above a change is exchanged for one that has the changed part. -/
theorem Ground.set (h : Ground p above) {e' : Node} (hl : l ∈ above)
    (hid : e'.id = l) : Ground { p with nodes := p.nodes.setIfInBounds e'.id e' } above := by
  refine ⟨by rw [Array.size_setIfInBounds]; exact h.sizes, fun m hm => ?_, h.closed⟩
  by_cases hml : m = l
  · refine ⟨e', node?_eq_some.mpr ⟨(h.lt_size hm).1, ?_⟩, hid.trans hml.symm⟩
    rw [hid, hml]
    exact Array.getElem?_setIfInBounds_self_of_lt (h.lt_size hl).2
  · obtain ⟨c, hc, hcid⟩ := h.placed m hm
    obtain ⟨hzero, hc⟩ := node?_eq_some.mp hc
    refine ⟨c, node?_eq_some.mpr ⟨hzero, ?_⟩, hcid⟩
    rw [hid, Array.getElem?_setIfInBounds_ne (Ne.symm hml)]
    exact hc

/-- Showing a changed part to its holders changes only nodes above it, and in them only parts that
    are the changed one or lie above it. -/
theorem propagate_spec (fuel : Nat) : ∀ {p : Program} {part : Node}, Ground p above →
    (∀ l, p.parentLabel? part = some l → l ∈ above) →
      (Program.propagate fuel part p).parents = p.parents ∧
      (Program.propagate fuel part p).nodes.size = p.nodes.size ∧
      (∀ l, l ∉ above → (Program.propagate fuel part p).nodes[l]? = p.nodes[l]?) ∧
      ∀ l ∈ above, ∀ e, p.nodes[l]? = some e →
        ∃ e', (Program.propagate fuel part p).nodes[l]? = some e' ∧ Keeps (part.id :: above) e e' := by
  induction fuel with
  | zero => exact fun _ _ => ⟨rfl, rfl, fun _ _ => rfl, fun _ _ e he => ⟨e, he, Keeps.refl⟩⟩
  | succ fuel ih =>
    intro p part h hup
    rw [Program.propagate]
    cases hparent : p.parent? part with
    | none => exact ⟨rfl, rfl, fun _ _ => rfl, fun _ _ e he => ⟨e, he, Keeps.refl⟩⟩
    | some holder =>
      obtain ⟨l, hlabel, hholder⟩ := Option.bind_eq_some_iff.mp hparent
      have hl := hup l hlabel
      obtain ⟨e, he, hid⟩ := h.placed l hl
      rw [hholder, Option.some.injEq] at he
      subst he
      have hid' : (holder.replacePart part).id = l := hid
      have hlt := h.lt_size hl
      have hup' : ∀ l', Program.parentLabel? { p with
          nodes := p.nodes.setIfInBounds (holder.replacePart part).id (holder.replacePart part) }
          (holder.replacePart part) = some l' → l' ∈ above := by
        intro l' hl'
        rw [Program.parentLabel?, hid', if_neg (by simpa using hlt.1)] at hl'
        exact h.closed l hl l' hl'
      obtain ⟨hparents, hsize, hother, habove⟩ := ih (h.set hl hid') hup'
      refine ⟨hparents, hsize.trans Array.size_setIfInBounds, fun m hm => ?_, fun m hm c hc => ?_⟩
      · rw [hother m hm, hid', Array.getElem?_setIfInBounds_ne (ne_of_mem_of_not_mem hl hm)]
      · have hsub : (holder.replacePart part).id :: above ⊆ part.id :: above := by
          intro x hx
          rcases mem_cons.mp hx with rfl | hx
          · exact mem_cons_of_mem _ (hid' ▸ hl)
          · exact mem_cons_of_mem _ hx
        have hself : [part.id] ⊆ part.id :: above := by simp
        by_cases hml : m = l
        · subst hml
          have hset : (p.nodes.setIfInBounds (holder.replacePart part).id
              (holder.replacePart part))[m]? = some (holder.replacePart part) := by
            rw [hid']
            exact Array.getElem?_setIfInBounds_self_of_lt hlt.2
          obtain ⟨c', hc', hkeeps⟩ := habove m hm _ hset
          obtain rfl : holder = c := by
            have hboth := (node?_eq_some.mp hholder).2.symm.trans hc
            exact Option.some.inj hboth
          exact ⟨c', hc', ((Keeps.replacePart holder part).mono hself).trans (hkeeps.mono hsub)⟩
        · have hset : (p.nodes.setIfInBounds (holder.replacePart part).id
              (holder.replacePart part))[m]? = some c := by
            rw [hid', Array.getElem?_setIfInBounds_ne (Ne.symm hml)]
            exact hc
          obtain ⟨c', hc', hkeeps⟩ := habove m hm _ hset
          exact ⟨c', hc', hkeeps.mono hsub⟩

/-- A node whose holders are known can be changed: it is as given afterwards, and only nodes above it
    see it. -/
theorem frame_update (h : Ground p above) {e : Node} (hzero : e.id ≠ 0)
    (hlt : e.id < p.nodes.size) (hnot : e.id ∉ above)
    (hup : ∀ l, p.parentLabel? e = some l → l ∈ above) :
    Frame p [e.id] above (p.update e) ∧ (p.update e).node? e.id = some e ∧
      (p.update e).nodes.size = p.nodes.size ∧ (p.update e).parents = p.parents := by
  have hground : Ground { p with nodes := p.nodes.setIfInBounds e.id e } above := by
    refine ⟨by rw [Array.size_setIfInBounds]; exact h.sizes, fun m hm => ?_, h.closed⟩
    obtain ⟨c, hc, hcid⟩ := h.placed m hm
    obtain ⟨hmzero, hc⟩ := node?_eq_some.mp hc
    refine ⟨c, node?_eq_some.mpr ⟨hmzero, ?_⟩, hcid⟩
    rw [Array.getElem?_setIfInBounds_ne (ne_of_mem_of_not_mem hm hnot).symm]
    exact hc
  obtain ⟨hparents, hsize, hother, habove⟩ := propagate_spec p.nodes.size hground hup
  rw [Program.update, if_neg (by simpa using hzero)]
  have hself : (p.nodes.setIfInBounds e.id e)[e.id]? = some e :=
    Array.getElem?_setIfInBounds_self_of_lt hlt
  have hsize' := hsize.trans Array.size_setIfInBounds
  refine ⟨⟨Nat.le_of_eq hsize'.symm, ?_, fun l _ hl hl' => ?_, fun l _ _ => by rw [hparents], ?_⟩,
    node?_eq_some.mpr ⟨hzero, (hother e.id hnot).trans hself⟩, hsize', hparents⟩
  · rw [hparents, hsize']
    exact h.sizes
  · rw [hother l hl', Array.getElem?_setIfInBounds_ne fun hel => hl (mem_singleton.mpr hel.symm)]
  · intro l hl c hc
    refine habove l hl c ?_
    rw [Array.getElem?_setIfInBounds_ne (ne_of_mem_of_not_mem hl hnot).symm]
    exact hc

/-! ### New trees -/

theorem foldl_adopt (old : Nat) (ms : List Node) (table : Array Node) :
    ms.foldl (fun table n => if n.id < old then table else table.setIfInBounds n.id n) table =
      (ms.filter fun n => !decide (n.id < old)).foldl
        (fun table n => table.setIfInBounds n.id n) table := by
  induction ms generalizing table with
  | nil => rfl
  | cons m ms ih =>
    rw [foldl_cons, ih]
    by_cases h : m.id < old <;> simp [h]

/-- A new tree gets labels behind the old ones, and the tables keep what they had. -/
theorem adopt_spec {tree tree' : Node} {q : Program} (h : p.adopt tree = (tree', q))
    (hsizes : p.parents.size = p.nodes.size) (hpos : 0 < p.nodes.size) :
    tree' = (tree.label p.nodes.size).1 ∧ q.nodes.size = (tree.label p.nodes.size).2 ∧
      q.parents.size = q.nodes.size ∧ (∀ l < p.nodes.size, q.nodes[l]? = p.nodes[l]?) ∧
      (∀ l < p.nodes.size, q.parents[l]? = p.parents[l]?) ∧
      (tree.id = 0 → (∀ l ∈ tree.labels, l < p.nodes.size) → q.node? tree'.id = some tree') := by
  have hmax : max 1 p.nodes.size = p.nodes.size := Nat.max_eq_right hpos
  have hle := (labels_label tree p.nodes.size hpos).1
  rw [Program.adopt, hmax] at h
  obtain ⟨rfl, rfl⟩ := Prod.mk.inj h
  generalize hlabel : tree.label p.nodes.size = labelled at hle ⊢
  have hnodesSize : ((labelled.1.walk.foldl
      (fun (table : Array Node) n => if n.id < p.nodes.size then table
        else table.setIfInBounds n.id n)
      (p.nodes ++ Array.replicate (labelled.2 - p.nodes.size) default))).size = labelled.2 := by
    rw [foldl_adopt, size_foldl_set, Array.size_append, Array.size_replicate]
    omega
  refine ⟨rfl, hnodesSize, ?_, fun l hl => ?_, fun l hl => ?_, fun hid hlt => ?_⟩
  · refine Eq.trans ?_ hnodesSize.symm
    rw [Array.size_append, Array.size_replicate, hsizes]
    omega
  · show (labelled.1.walk.foldl _ _)[l]? = _
    rw [foldl_adopt, getElem?_foldl_set_of_not_mem Node.id (fun n => n), Array.getElem?_append_left hl]
    simp only [mem_map, mem_filter, Bool.not_eq_true', decide_eq_false_iff_not]
    rintro ⟨m, ⟨_, hm⟩, rfl⟩
    exact hm hl
  · exact Array.getElem?_append_left (hsizes ▸ hl)
  · have halone : tree.RootAlone := fun a _ hmem => (mem_labels.mp hmem).1 hid
    have hroot := id_label tree p.nodes.size
    have hzero := id_ne_zero_of_mem_walk_label tree p.nodes.size hpos _ (self_mem_walk _)
    have hnot := Program.not_mem_of_rootAlone (halone.label hpos hlt) hzero
    have hdrawn := labels_label tree p.nodes.size hpos
    rw [hlabel] at hroot hzero hnot hdrawn
    rw [if_pos hid] at hroot
    have hgrow : labelled.1.id < labelled.2 := by
      rcases hdrawn.mem (mem_labels.mpr ⟨hzero, _, self_mem_walk _, rfl⟩) with hold | hnew
      · have := hlt _ hold
        omega
      · exact hnew.2
    refine node?_eq_some.mpr ⟨hzero, ?_⟩
    show (labelled.1.walk.foldl _ _)[_]? = _
    rw [foldl_adopt, walk_eq, filter_cons_of_pos (by simp [hroot])]
    refine getElem?_foldl_set_cons Node.id (fun n => n) (fun hmem => hnot ?_) _ ?_
    · exact (filter_sublist.map Node.id).subset hmem
    · rw [Array.size_append, Array.size_replicate]
      omega

end Updates

end Cppward.Analysis
