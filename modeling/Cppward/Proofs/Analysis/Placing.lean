import Cppward.Proofs.Analysis.Bounds
import Cppward.Proofs.Analysis.Framing
import Cppward.Proofs.Failing

namespace Cppward.Analysis

open Node Stateful List
open Option (mem_toList bind_some getD_some)
open Program (parentLabel? setParent setScope current parent?)

/-!
# Nodes that are about to be checked

The safety checks build trees that hold nodes of the old one.

* `labels_banReferences`, `labels_unsafeBranch`, … — the trees that are built,
* `Place` — what is known about nodes that are about to be checked,
* `Secures` — what is known about the nodes that come back (`secures_mapM`).
-/

variable {statements ns' : List Node} {container copy m iterable e : Node} {k k' depth : Nat}

/-! ### Built trees -/

section Built

theorem labels_make (kind : Kind) (func : Option Node) (args : List Node) (loc : Nat) :
    (make kind func args loc).labels = func.toList.flatMap labels ++ args.flatMap labels := by
  rw [labels_eq, parts]
  simp [ownLabel, Node.id, make]

theorem labels_unsafeBranch (statements : List Node) :
    (unsafeBranch statements).labels = statements.flatMap labels := by
  simp [unsafeBranch, ofCall, ofBlock, ofDigits, ident, labels_make]

theorem labels_banReferences (container copy : Node) :
    (banReferences container copy).labels = copy.labels ++ container.labels := by
  simp [banReferences, ofCall, ofBlock, ofBinary, ofUnary, ident, labels_make]

theorem type_make (kind : Kind) (func : Option Node) (args : List Node) (loc : Nat) :
    (make kind func args loc).type = none := rfl

theorem untyped_unsafeBranch (h : ∀ a ∈ statements, Untyped a) :
    Untyped (unsafeBranch statements) := by
  simpa [Untyped, unsafeBranch, ofCall, ofBlock, ofDigits, ident, forall_mem_walk_make,
    type_make] using h

theorem untyped_banReferences (hcontainer : Untyped container)
    (hcopy : Untyped copy) : Untyped (banReferences container copy) := by
  simpa [Untyped, banReferences, ofCall, ofBlock, ofBinary, ofUnary, ident, forall_mem_walk_make,
    type_make] using And.intro hcopy hcontainer

theorem binary?_make (kind : Kind) (func : Option Node) (args : List Node) (loc : Nat) :
    (make kind func args loc).binary? = match kind with
      | .binary cls _ => some cls
      | _ => none := rfl

theorem declarable_make {kind : Kind} {func : Option Node} {args : List Node} {loc : Nat} :
    Declarable (make kind func args loc) ↔
      ((make kind func args loc).binary? = some .typed → ∀ a ∈ args.tail, Untyped a) ∧
        (∀ f ∈ func, Declarable f) ∧ ∀ a ∈ args, Declarable a := by
  rw [declarable_iff, evaluated, forall_mem_append]
  simp only [make, mem_toList]
  rfl

theorem declarable_unsafeBranch (h : ∀ a ∈ statements, Declarable a) :
    Declarable (unsafeBranch statements) := by
  simpa [unsafeBranch, ofCall, ofBlock, ofDigits, ident, declarable_make, binary?_make] using h

/-- The only colon of a wrapped container has `decltype(auto)` on its right. -/
theorem declarable_banReferences (hcontainer : Declarable container)
    (hcopy : Declarable copy) : Declarable (banReferences container copy) := by
  simpa [banReferences, ofCall, ofBlock, ofBinary, ofUnary, ident, declarable_make, binary?_make,
    Untyped, forall_mem_walk_make, type_make] using And.intro hcopy hcontainer

end Built

/-! ### Trees that get labels -/

section Labels

variable {n : Node}

theorem untyped_anonymous : Untyped n.anonymous ↔ Untyped n := by
  simp only [Untyped, walk_anonymous, forall_mem_map, type_anonymous, Option.map_eq_none_iff]

theorem declarable_anonymous (n : Node) : Declarable n.anonymous ↔ Declarable n := by
  induction n using evaluatedInduction with
  | step n ih =>
    rw [declarable_iff, declarable_iff n, binary?_anonymous, evaluated_anonymous]
    simp only [args_anonymous, ← map_tail, forall_mem_map, untyped_anonymous]
    exact and_congr_right fun _ => forall₂_congr ih

theorem untyped_label (next : Nat) : Untyped (n.label next).1 ↔ Untyped n := by
  rw [← untyped_anonymous, anonymous_label, untyped_anonymous]

theorem declarable_label (next : Nat) : Declarable (n.label next).1 ↔ Declarable n := by
  rw [← declarable_anonymous, anonymous_label, declarable_anonymous]

/-- A tree without types loses all of its labels. -/
theorem unlabel_spec (n : Node) (h : Untyped n) : n.unlabel.labels = [] ∧ Untyped n.unlabel := by
  induction n using Node.induction with
  | step n ihfunc ihargs _ =>
    have htype := h n n.self_mem_walk
    have hfunc : ∀ f ∈ n.func, f.unlabel.labels = [] ∧ Untyped f.unlabel :=
      fun f hf => ihfunc f hf (h.part (func_mem_parts hf))
    have hargs : ∀ a ∈ n.args, a.unlabel.labels = [] ∧ Untyped a.unlabel :=
      fun a ha => ihargs a ha (h.part (arg_mem_parts ha))
    rw [unlabel_eq]
    refine ⟨?_, forall_mem_walk_iff.mpr ⟨htype, ?_, ?_, ?_⟩⟩
    · rw [labels_eq, parts]
      simp only [append_eq_nil_iff, flatMap_eq_nil_iff, mem_append,
        mem_toList, htype]
      refine ⟨rfl, ?_⟩
      rintro _ ((hmem | hmem) | hmem)
      · obtain ⟨f, hf, rfl⟩ := Option.mem_map.mp hmem
        exact (hfunc f hf).1
      · obtain ⟨a, ha, rfl⟩ := mem_map.mp hmem
        exact (hargs a ha).1
      · cases hmem
    · exact Option.forall_mem_map.mpr fun f hf => (hfunc f hf).2
    · exact forall_mem_map.mpr fun a ha => (hargs a ha).2
    · intro t ht
      rw [htype] at ht
      cases ht

theorem labels_unlabel_copy_subset (n : Node) : n.copy.unlabel.labels ⊆ n.labels := by
  have hids : ∀ m ∈ n.copy.unlabel.walk, m.id = 0 ∨ m.id ∈ n.labels := by
    refine id_unlabel (P := fun l => l = 0 ∨ l ∈ n.labels) (.inl rfl)
      (id_copy (P := fun l => l = 0 ∨ l ∈ n.labels) fun m hm => ?_)
    by_cases hzero : m.id = 0
    · exact .inl hzero
    · exact .inr (mem_labels.mpr ⟨hzero, m, hm, rfl⟩)
  intro l hl
  obtain ⟨hzero, m, hm, rfl⟩ := mem_labels.mp hl
  exact (hids m hm).resolve_left hzero

end Labels

/-! ### Before and after -/

/-- The nodes are in the tables as the parts of some node, with labels of their own; `above` has the
    labels of the nodes that they are in. -/
structure Place (p : Program) (ns : List Node) (above : List Nat) : Prop where
  ground : Ground p above
  nodup : (ns.flatMap labels).Nodup
  ne_zero : ∀ n ∈ ns, ∀ m ∈ n.walk, m.id ≠ 0
  links : ∀ n ∈ ns, p.Links n
  up : ∀ n ∈ ns, ∀ l, p.parentLabel? n = some l → l ∈ above
  apart : ∀ l ∈ ns.flatMap labels, l ∉ above

/-- The statements that a branch gets from the argument of `unsafe(...)`. -/
def branchStatements (arg : Node) : List Node := if arg.isBlock then arg.args else [arg]

/-- A container that is wrapped together with its copy; the copy has new labels from `k` on, and what
    is built around them has those from `k'` on. -/
def wrapContainer (iterable : Node) (k k' : Nat) : Node :=
  ((banReferences iterable (iterable.copy.unlabel.label k).1).label k').1

/-- The relation holds between every node and what the checks make of it.  If `plain` holds, the copies
    of containers have no declared types. -/
structure Respected (plain : Prop) (K : Node → Node → Prop) : Prop where
  refl : ∀ n, K n n
  parts : ∀ {n : Node} {args : List Node} {func : Option Node}, List.Forall₂ K n.args args →
    List.Forall₂ K n.func.toList func.toList → K n { n with args, func }
  wrap : ∀ {head target iterable : Node} {k k' : Nat}, head.args = [target, iterable] →
    (∀ m ∈ iterable.walk, m.id ≠ 0) → (plain → Untyped iterable.copy) →
      K head { head with args := [target, wrapContainer iterable k k'] }
  branch : ∀ {n arg : Node} {func : Option Node} {k : Nat}, List.Forall₂ K n.args [arg] →
    List.Forall₂ K n.func.toList func.toList →
      isCallOf { n with args := [arg], func } "unsafe" = true → (∀ m ∈ arg.walk, m.id ≠ 0) →
        K n ((unsafeBranch (branchStatements arg)).label k).1

/-- The nodes `ns` became `ns'`, which have their labels and new ones. -/
structure Secures (plain : Prop) (K : Node → Node → Prop) (p : Program) (ns : List Node)
    (above : List Nat) (ns' : List Node) (q : Program) : Prop where
  frame : Frame p (ns.flatMap labels) above q
  entries : ∀ n' ∈ ns', q.node? n'.id = some n'
  spread : Spread plain (ns.flatMap labels) (ns'.flatMap labels) p.nodes.size q.nodes.size
  ne_zero : ∀ n' ∈ ns', ∀ m ∈ n'.walk, m.id ≠ 0
  kept : List.Forall₂ K ns ns'

section Nodes

variable {plain : Prop} {K : Node → Node → Prop} {p q : Program} {n : Node} {ns : List Node}
  {above : List Nat}

theorem mem_labels_of_mem_walk (h : ∀ m ∈ n.walk, m.id ≠ 0) (hm : m ∈ n.walk) :
    m.id ∈ n.labels := mem_labels.mpr ⟨h m hm, m, hm, rfl⟩

theorem id_mem_labels (h : ∀ n ∈ ns, ∀ m ∈ n.walk, m.id ≠ 0) (hn : n ∈ ns) :
    n.id ∈ ns.flatMap labels :=
  mem_flatMap.mpr ⟨n, hn, mem_labels_of_mem_walk (h n hn) n.self_mem_walk⟩

namespace Place

theorem of_subset (h : Place p ns above) {ns₁ : List Node} (hsub : ns₁.Sublist ns) :
    Place p ns₁ above where
  ground := h.ground
  nodup := h.nodup.sublist (hsub.flatMap labels)
  ne_zero := fun n hn => h.ne_zero n (hsub.subset hn)
  links := fun n hn => h.links n (hsub.subset hn)
  up := fun n hn => h.up n (hsub.subset hn)
  apart := fun l hl => h.apart l ((hsub.flatMap labels).subset hl)

theorem lt_size (h : Place p ns above) {l : Nat} (hl : l ∈ ns.flatMap labels) :
    l < p.nodes.size := by
  obtain ⟨n, hn, hl⟩ := mem_flatMap.mp hl
  obtain ⟨_, m, hm, rfl⟩ := mem_labels.mp hl
  have hentry := (h.links n hn m hm).1
  exact (Array.getElem?_eq_some_iff.mp (node?_eq_some.mp hentry).2).1

theorem self_ne_zero (h : Place p [n] above) : ∀ m ∈ n.walk, m.id ≠ 0 :=
  h.ne_zero n mem_cons_self

theorem self_links (h : Place p [n] above) : p.Links n := h.links n mem_cons_self

theorem mem_labels (h : Place p [n] above) : n.id ∈ n.labels :=
  mem_labels_of_mem_walk h.self_ne_zero n.self_mem_walk

theorem lt_size_self (h : Place p [n] above) : ∀ l ∈ n.labels, l < p.nodes.size :=
  fun _ hl => h.lt_size (by simpa using hl)

/-- The parts of a node in place are in place below it. -/
theorem parts (h : Place p [n] above) {ns : List Node} (hsub : ns.Sublist n.parts) :
    Place p ns (n.id :: above) := by
  have hlinks := h.self_links
  have hzero := h.self_ne_zero
  have hnodup := h.nodup
  have hapart := h.apart
  rw [flatMap_singleton, labels_eq, ownLabel, if_neg (hzero n n.self_mem_walk)] at hnodup
  simp only [flatMap_singleton] at hapart
  have hmem : ∀ l ∈ ns.flatMap labels, l ∈ n.parts.flatMap labels :=
    fun l hl => (hsub.flatMap labels).subset hl
  have hwalk : ∀ a ∈ ns, ∀ m ∈ a.walk, m ∈ n.walk :=
    fun a ha m hm => mem_walk_of_mem_parts (hsub.subset ha) hm
  refine ⟨⟨h.ground.sizes, ?_, ?_⟩, ?_, ?_, ?_, ?_, ?_⟩
  · exact forall_mem_cons.mpr
      ⟨⟨n, (hlinks n n.self_mem_walk).1, rfl⟩, h.ground.placed⟩
  · refine forall_mem_cons.mpr ⟨fun l hl => ?_, fun l hl l' hl' => ?_⟩
    · refine mem_cons_of_mem _ (h.up n mem_cons_self l ?_)
      rw [parentLabel?, if_neg (by simpa using hzero n n.self_mem_walk)]
      exact hl
    · exact mem_cons_of_mem _ (h.ground.closed l hl l' hl')
  · exact (nodup_append.mp hnodup).2.1.sublist (hsub.flatMap labels)
  · exact fun a ha m hm => hzero m (hwalk a ha m hm)
  · exact fun a ha m hm => hlinks m (hwalk a ha m hm)
  · intro a ha l hl
    rw [(hlinks n n.self_mem_walk).2 a (hsub.subset ha)] at hl
    cases hl
    exact mem_cons_self
  · intro l hl hmem'
    rcases mem_cons.mp hmem' with rfl | habove
    · exact (nodup_append.mp hnodup).2.2 _ mem_cons_self _ (hmem _ hl) rfl
    · refine hapart l ?_ habove
      rw [labels_eq]
      exact mem_append_right _ (hmem l hl)

/-- Changes elsewhere leave nodes in place. -/
theorem frame (h : Place p ns above) {ls above' : List Nat} (hframe : Frame p ls above' q)
    (hground : Ground q above) (hls : ∀ l ∈ ns.flatMap labels, l ∉ ls ∧ l ∉ above') :
    Place q ns above where
  ground := hground
  nodup := h.nodup
  ne_zero := h.ne_zero
  links := by
    intro n hn m hm
    have hlabel : ∀ c ∈ n.walk, c.id ∈ ns.flatMap labels := fun c hc =>
      mem_flatMap.mpr ⟨n, hn, mem_labels_of_mem_walk (h.ne_zero n hn) hc⟩
    obtain ⟨hentry, hparents⟩ := h.links n hn m hm
    refine ⟨hframe.node? hentry (hls _ (hlabel m hm)).1 (hls _ (hlabel m hm)).2, fun a ha => ?_⟩
    have ha' := mem_walk_trans hm (mem_walk_of_mem_parts ha a.self_mem_walk)
    rw [hframe.parentLabel? (h.lt_size (hlabel a ha')) (hls _ (hlabel a ha')).1]
    exact hparents a ha
  up := by
    intro n hn l hl
    have hlabel := id_mem_labels h.ne_zero hn
    rw [hframe.parentLabel? (h.lt_size hlabel) (hls _ hlabel).1] at hl
    exact h.up n hn l hl
  apart := h.apart

end Place

theorem Secures.refl (hK : Respected plain K) (h : Place p ns above) :
    Secures plain K p ns above ns p where
  frame := Frame.refl h.ground.sizes
  entries := fun n hn => (h.links n hn n n.self_mem_walk).1
  spread := Spread.refl
  ne_zero := h.ne_zero
  kept := forall₂_same.mpr fun n _ => hK.refl n

theorem Secures.apart (h : Secures plain K p ns above ns' q)
    (hplace : Place p ns above) : ∀ l ∈ ns'.flatMap labels, l ∉ above :=
  fun _ hl => h.spread.not_mem hl hplace.apart fun _ hl => (hplace.ground.lt_size hl).2

/-- Where each step secures its node, the steps in a row secure all of them. -/
theorem secures_mapM (hK : Respected plain K) {f : Node → Build Node} {Q : Program → Node → Prop}
    (hf : ∀ n ∈ ns, ∀ {p r q}, Place p [n] above → Q p n → (f n).run p = .ok (r, q) →
      Secures plain K p [n] above [r] q) :
    ∀ {p : Program} {rs : List Node}, Place p ns above →
      (∀ q, Frame p (ns.flatMap labels) above q → ∀ n ∈ ns, q.parentLabel? n = p.parentLabel? n →
        Q q n) →
        (ns.mapM f).run p = .ok (rs, q) → Secures plain K p ns above rs q := by
  induction ns with
  | nil =>
    intro p rs hplace _ hrun
    obtain ⟨rfl, rfl⟩ := mapM_nil_eq_ok.mp hrun
    exact Secures.refl hK hplace
  | cons n ns ih =>
    intro p rs hplace hQ hrun
    obtain ⟨r, p', rs', hfirst, hrest, rfl⟩ := mapM_cons_eq_ok.mp hrun
    have hself : n ∈ n :: ns := mem_cons_self
    have hheadPlace := hplace.of_subset (singleton_sublist.mpr hself)
    have hhead := hf n hself hheadPlace
      (hQ p (Frame.refl hplace.ground.sizes) n hself rfl) hfirst
    have hnodup := hplace.nodup
    rw [flatMap_cons, nodup_append] at hnodup
    have hheadFrame := hhead.frame
    rw [flatMap_singleton] at hheadFrame
    have hwide : Frame p ((n :: ns).flatMap labels) above p' :=
      hheadFrame.mono (subset_append_left _ _) (List.Subset.refl _) (subset_append_right _ _)
    have hground : Ground p' above := hwide.ground hplace.ground fun l hl hl' => hplace.apart l hl' hl
    have htailPlace : Place p' ns above := by
      refine (hplace.of_subset (sublist_cons_self n ns)).frame hheadFrame hground fun l hl => ?_
      exact ⟨fun hl' => hnodup.2.2 l hl' l hl rfl, hplace.apart l (mem_append_right _ hl)⟩
    have hwiden : ∀ {q}, Frame p' (ns.flatMap labels) above q →
        Frame p ((n :: ns).flatMap labels) above q := fun hframe => hwide.trans
      (hframe.mono (subset_append_right _ _) (List.Subset.refl _) (subset_append_right _ _))
    have hQtail : ∀ q, Frame p' (ns.flatMap labels) above q → ∀ m ∈ ns,
        q.parentLabel? m = p'.parentLabel? m → Q q m := by
      intro q hq m hm hparent
      refine hQ q (hwiden hq) m (mem_cons_of_mem n hm) (hparent.trans ?_)
      have hlabel := id_mem_labels htailPlace.ne_zero hm
      exact hheadFrame.parentLabel? (hplace.lt_size (mem_append_right _ hlabel))
        fun hl => hnodup.2.2 _ hl _ hlabel rfl
    have htail := ih (fun m hm => hf m (mem_cons_of_mem n hm)) htailPlace hQtail hrest
    refine ⟨hwiden htail.frame, ?_, ?_, ?_, ?_⟩
    · refine forall_mem_cons.mpr ⟨?_, htail.entries⟩
      -- the label of the first result is its own or a new one
      have hrlabel := id_mem_labels hhead.ne_zero mem_cons_self
      have hentry := hhead.entries r mem_cons_self
      refine htail.frame.node? hentry ?_ (hhead.apart hheadPlace r.id hrlabel)
      refine hhead.spread.not_mem hrlabel (fun l hl hl' => ?_) fun l hl => ?_
      · rw [flatMap_singleton] at hl
        exact hnodup.2.2 l hl l hl' rfl
      · exact hplace.lt_size (mem_append_right _ hl)
    · have hspread := hhead.spread.append htail.spread
      simpa using hspread
    · exact forall_mem_cons.mpr ⟨hhead.ne_zero r mem_cons_self, htail.ne_zero⟩
    · cases hhead.kept with
      | cons hr _ => exact .cons hr htail.kept

/-! ### A node with other parts -/

theorem spread_parts {args : List Node} {func : Option Node} {k'' : Nat}
    (hargs : Spread plain (n.args.flatMap labels) (args.flatMap labels) k k')
    (hfunc : Spread plain (n.func.toList.flatMap labels) (func.toList.flatMap labels) k' k'') :
    Spread plain (n.parts.flatMap labels) ((parts { n with func, args }).flatMap labels) k k'' := by
  have htype : Spread plain (n.type.toList.flatMap labels) (n.type.toList.flatMap labels) k'' k'' :=
    Spread.refl
  have hall := hargs.append (hfunc.append htype)
  simp only [← flatMap_append, ← append_assoc] at hall
  exact hall.mono ((perm_parts n).flatMap_right labels).subperm
    ((perm_parts { n with func, args }).flatMap_right labels).symm.subperm

theorem spread_node {r : Node} (hid : r.id = n.id)
    (h : Spread plain (n.parts.flatMap labels) (r.parts.flatMap labels) k k') :
    Spread plain n.labels r.labels k k' := by
  rw [labels_eq n, labels_eq r, ownLabel, ownLabel, hid]
  exact Spread.refl.append h

/-- The label of a node that was checked is on no part of the result. -/
theorem Place.rootAlone (hplace : Place p [n] above) {r : Node} (hid : r.id = n.id)
    (h : Spread plain (n.parts.flatMap labels) (r.parts.flatMap labels) p.nodes.size k) :
    r.RootAlone := by
  have hzero := hplace.self_ne_zero n n.self_mem_walk
  have hnodup := hplace.nodup
  rw [flatMap_singleton, labels_eq, ownLabel, if_neg hzero, nodup_append] at hnodup
  intro a ha hmem
  rcases h.mem r.id (mem_flatMap.mpr ⟨a, ha, hmem⟩) with hold | hnew
  · exact hnodup.2.2 n.id mem_cons_self r.id hold hid.symm
  · have := hplace.lt_size_self _ hplace.mem_labels
    omega

theorem Place.rootAlone_self (hplace : Place p [n] above) : n.RootAlone :=
  hplace.rootAlone rfl (Spread.refl : Spread True _ _ _ p.nodes.size)

theorem ne_zero_parts {args : List Node} {func : Option Node} (hn : ∀ m ∈ n.walk, m.id ≠ 0)
    (hargs : ∀ a ∈ args, ∀ m ∈ a.walk, m.id ≠ 0) (hfunc : ∀ f ∈ func, ∀ m ∈ f.walk, m.id ≠ 0) :
    ∀ m ∈ (walk { n with func, args }), m.id ≠ 0 := by
  obtain ⟨hself, _, _, htype⟩ := forall_mem_walk_iff.mp hn
  exact forall_mem_walk_iff.mpr ⟨hself, hfunc, hargs, htype⟩

end Nodes

end Cppward.Analysis
