import Cppward.Proofs.Analysis.Wrapping

namespace Cppward.Analysis

open Node Stateful List
open Option (mem_toList bind_some getD_some)
open Program (parentLabel? setParent setScope current parent?)

/-!
# Labels under the safety checks

Where no container that is wrapped has declared types in it, no label comes to stand at two places.

* `Midway` — a node whose parts have been checked (`midway_args`, `midway_func`),
* `secures_checkSafetyTo` — the pass over a tree,
* `respected_typesKept` — declared types stay as they are.
-/

variable {statements ns' : List Node} {container copy m iterable e : Node} {k k' depth : Nat}

/-! ### The pass -/

/-- If the container of the loop head is wrapped, its copy has no declared types. -/
def WrapsPlain (head : Node) : Prop := ∀ c, head.args[1]? = some c → c.isIdent = false → Untyped c.copy

/-- The heads of all loops in the tree wrap containers whose copies have no declared types. -/
@[mk_iff]
inductive Wrappable : Node → Prop
  | make {n : Node} (hheads : n.funcName? = some "for" → ∀ a ∈ n.args, a.isBinary = true →
      a.op? = some "in" → WrapsPlain a) (hparts : ∀ a ∈ n.evaluated, Wrappable a) : Wrappable n

section Pass

variable {plain : Prop} {K : Node → Node → Prop} {p q : Program} {n r : Node} {above : List Nat}

theorem loopBody?_isSome (h : (loopBody? p n).isSome = true) :
    n.isBinary = true ∧ n.op? = some "in" ∧
      ∃ loop, p.parent? n = some loop ∧ loop.funcName? = some "for" := by
  rw [loopBody?] at h
  cases hloop : p.parent? n with
  | none => simp [hloop] at h
  | some loop =>
    simp only [hloop, Option.bind_eq_bind, bind_some] at h
    split at h
    · rename_i hhead
      simp only [Bool.and_eq_true, beq_iff_eq] at hhead
      exact ⟨hhead.1.1, hhead.1.2, loop, rfl, hhead.2⟩
    · cases h

theorem secures_checkLoop (hK : Respected plain K) {loop body : Node} (hplace : Place p [n] above)
    (hplain : plain → WrapsPlain n) (hrun : (checkLoop n loop body).run p = .ok (r, q)) :
    Secures plain K p [n] above [r] q ∧ r.id = n.id ∧ r.RootAlone := by
  rcases checkLoop_cases hrun with ⟨rfl, rfl⟩ | ⟨target, iterable, hargs, hident, hwrap⟩
  · exact ⟨Secures.refl hK hplace, rfl, hplace.rootAlone_self⟩
  · refine secures_wrapIterable hK hplace hargs (fun h => ?_) hwrap
    exact hplain h iterable (by simp [hargs]) hident

/-- While the arguments of a node are changed, what it applies stays. -/
theorem Place.entry_args (hplace : Place p [n] above)
    (hframe : Frame p (n.args.flatMap labels) (n.id :: above) q) :
    ∃ e, q.node? n.id = some e ∧ ∀ args, { e with args } = { n with args } := by
  have hself := (hplace.self_links n n.self_mem_walk).1
  obtain ⟨e, he, hkeeps⟩ := hframe.node?_above hself mem_cons_self
  have hnodup := ((labels_perm n).nodup_iff.mp (by simpa using hplace.nodup))
  rw [nodup_append, nodup_append] at hnodup
  -- the other parts have labels that are neither in the arguments nor above
  have hother : ∀ m ∈ n.func.toList ++ n.type.toList,
      m.id ∉ n.args.flatMap labels ++ n.id :: above := by
    intro m hm hmem
    have hpart : m ∈ n.parts := by
      simp only [Node.parts, mem_append] at hm ⊢
      exact hm.elim (fun h => .inl (.inl h)) .inr
    have hplaced := hplace.parts (singleton_sublist.mpr hpart)
    have hlabel : m.id ∈ n.func.toList.flatMap labels ++ n.type.toList.flatMap labels := by
      rw [← flatMap_append]
      exact mem_flatMap.mpr ⟨m, hm, hplaced.mem_labels⟩
    rcases mem_append.mp hmem with hmem | hmem
    · exact hnodup.2.1.2.2 _ hmem _ hlabel rfl
    · exact hplaced.apart m.id (by simpa using hplaced.mem_labels) hmem
  have hfunc := hkeeps.func fun f hf => hother f (mem_append_left _ (mem_toList.mpr hf))
  have htype := hkeeps.type fun t ht => hother t (mem_append_right _ (mem_toList.mpr ht))
  refine ⟨e, he, fun args => ?_⟩
  rw [hkeeps.info, hkeeps.kind, hfunc, htype]

theorem Secures.map_current {ns : List Node} (h : Secures plain K p ns above ns' q) :
    ns'.map q.current = ns' := by
  refine (map_congr_left fun a ha => ?_).trans (map_id _)
  rw [current, h.entries a ha, getD_some]
  rfl

/-- A node can be changed once its parts have been. -/
theorem Place.update (hplace : Place p [n] above) (hframe : Frame p n.labels above q)
    (hparent : q.parentLabel? n = p.parentLabel? n) (hid : e.id = n.id) :
    Frame q [n.id] above (q.update e) ∧ (q.update e).node? n.id = some e ∧
      (q.update e).nodes.size = q.nodes.size ∧ (q.update e).parents = q.parents := by
  have hlabel := hplace.mem_labels
  have hground := hframe.ground hplace.ground fun l hl hl' => hplace.apart l (by simpa using hl') hl
  rw [← hid]
  refine frame_update hground ?_ ?_ ?_ fun l hl => ?_
  · rw [hid]
    exact hplace.self_ne_zero n n.self_mem_walk
  · rw [hid]
    exact Nat.lt_of_lt_of_le (hplace.lt_size_self _ hlabel) hframe.size_le
  · rw [hid]
    exact hplace.apart _ (by simpa using hlabel)
  · rw [parentLabel?, hid] at hl
    exact hplace.up n mem_cons_self l (hparent.symm.trans hl)

/-- The changed node is above its parts, as it was before. -/
theorem Ground.update (hground : Ground p (n.id :: above)) (hid : e.id = n.id)
    (hframe : Frame p [n.id] above q) (hentry : q.node? n.id = some e)
    (hparents : q.parents = p.parents) : Ground q (n.id :: above) := by
  refine ⟨hframe.sizes, forall_mem_cons.mpr ⟨⟨e, hentry, hid⟩, fun l hl => ?_⟩, ?_⟩
  · obtain ⟨c, hc, hcid⟩ := hground.placed l (mem_cons_of_mem _ hl)
    obtain ⟨c', hc', hkeeps⟩ := hframe.node?_above hc hl
    exact ⟨c', hc', hkeeps.id.trans hcid⟩
  · rw [hparents]
    exact hground.closed

/-! ### A node whose parts are checked -/

/-- A node in the course of its check: it stands in the tables as `n₁` now. -/
structure Midway (p : Program) (n : Node) (above : List Nat) (n₁ : Node) (q : Program) : Prop where
  frame : Frame p n.labels above q
  entry : q.node? n.id = some n₁
  parent : q.parentLabel? n = p.parentLabel? n

section Midway

variable {p₁ p₂ p₃ : Program} {args : List Node} {func : Option Node}

/-- The arguments, what is applied and the declared type have no labels in common. -/
theorem Place.disjoint (hplace : Place p [n] above) :
    (∀ l ∈ n.args.flatMap labels, l ∉ n.func.toList.flatMap labels) ∧
      ∀ l ∈ n.type.toList.flatMap labels, l ∉ n.func.toList.flatMap labels := by
  have hnodup := (labels_perm n).nodup_iff.mp (by simpa using hplace.nodup)
  rw [nodup_append, nodup_append, nodup_append] at hnodup
  obtain ⟨_, ⟨_, ⟨_, _, hfunc⟩, hargs⟩, _⟩ := hnodup
  exact ⟨fun l hl hl' => hargs l hl l (mem_append_left _ hl') rfl,
    fun l hl hl' => hfunc l hl' l hl rfl⟩

theorem sublist_args (n : Node) : n.args.Sublist n.parts :=
  (sublist_append_right _ _).trans (sublist_append_left _ _)

theorem sublist_func (n : Node) : n.func.toList.Sublist n.parts :=
  (sublist_append_left _ _).trans (sublist_append_left _ _)

theorem sublist_type (n : Node) : n.type.toList.Sublist n.parts := sublist_append_right _ _

theorem labels_subset_of_sublist {ns : List Node} (h : ns.Sublist n.parts) :
    ns.flatMap labels ⊆ n.labels := by
  intro l hl
  rw [labels_eq]
  exact mem_append_right _ ((h.flatMap labels).subset hl)

theorem Place.not_mem_self {ns : List Node} (hplace : Place p ns (n.id :: above)) :
    n.id ∉ ns.flatMap labels := fun hmem => hplace.apart _ hmem mem_cons_self

/-- What changes in parts of a node is a change of the node. -/
theorem Frame.of_parts {ns : List Node} (hplace : Place p [n] above) (hsub : ns.Sublist n.parts)
    (hframe : Frame p₁ (ns.flatMap labels) (n.id :: above) q) : Frame p₁ n.labels above q :=
  hframe.mono (labels_subset_of_sublist hsub) (subset_cons_self _ _)
    (cons_subset.mpr ⟨mem_append_left _ hplace.mem_labels, subset_append_right _ _⟩)

theorem Frame.of_self (hplace : Place p [n] above) (hframe : Frame p₁ [n.id] above q) :
    Frame p₁ n.labels above q :=
  hframe.mono (cons_subset.mpr ⟨hplace.mem_labels, nil_subset _⟩) (List.Subset.refl _)
    (subset_append_right _ _)

/-- The node with its checked arguments; what it applies is still in place. -/
theorem midway_args (hplace : Place p [n] above) (hargs : Secures plain K p n.args (n.id :: above) args p₁)
    (hp₂ : p₁.update { p₁.current n with args := args.map p₁.current } = p₂) :
    Midway p n above { n with args } p₂ ∧ p₂.nodes.size = p₁.nodes.size ∧
      Place p₂ n.func.toList (n.id :: above) ∧ ∀ f ∈ n.func, p₂.parentLabel? f = some n.id := by
  have hargsPlace := hplace.parts (sublist_args n)
  have hfuncPlace := hplace.parts (sublist_func n)
  have hlt := hplace.lt_size_self
  have hwide₁ := hargs.frame.of_parts hplace (sublist_args n)
  have hparent₁ : p₁.parentLabel? n = p.parentLabel? n :=
    hargs.frame.parentLabel? (hlt _ hplace.mem_labels) hargsPlace.not_mem_self
  obtain ⟨e, he, hsame⟩ := hplace.entry_args hargs.frame
  rw [hargs.map_current, current, he, getD_some, hsame args] at hp₂
  obtain ⟨hframe, hentry, hsize, hparents⟩ :=
    hplace.update hwide₁ hparent₁ (e := { n with args }) rfl
  rw [hp₂] at hframe hentry hsize hparents
  have hground₁ := hargs.frame.ground hargsPlace.ground fun l hl hl' => hargsPlace.apart l hl' hl
  have hfuncNot : ∀ l ∈ n.func.toList.flatMap labels, l ∉ n.args.flatMap labels :=
    fun l hl hl' => hplace.disjoint.1 l hl' hl
  have hfuncPlace₁ : Place p₁ n.func.toList (n.id :: above) :=
    hfuncPlace.frame hargs.frame hground₁ fun l hl => ⟨hfuncNot l hl, hfuncPlace.apart l hl⟩
  have hnotSelf : ∀ l ∈ n.func.toList.flatMap labels, l ∉ [n.id] ∧ l ∉ above := by
    intro l hl
    have hnot := hfuncPlace.apart l hl
    rw [mem_cons, not_or] at hnot
    exact ⟨by simpa using hnot.1, hnot.2⟩
  refine ⟨⟨hwide₁.trans (hframe.of_self hplace), hentry, ?_⟩, hsize, ?_, fun f hf => ?_⟩
  · rw [← hparent₁, parentLabel?, parentLabel?, hparents]
  · exact hfuncPlace₁.frame hframe (hground₁.update (e := { n with args }) rfl hframe hentry hparents)
      hnotSelf
  · have hlabel := id_mem_labels hfuncPlace.ne_zero (mem_toList.mpr hf)
    have hflt := hlt _ (labels_subset_of_sublist (sublist_func n) hlabel)
    rw [hframe.parentLabel? (Nat.lt_of_lt_of_le hflt hwide₁.size_le) (hnotSelf _ hlabel).1,
      hargs.frame.parentLabel? hflt (hfuncNot _ hlabel)]
    exact (hplace.self_links n n.self_mem_walk).2 f (func_mem_parts hf)

/-- The function is put into a node whose arguments have been put into it before. -/
theorem midway_func (hplace : Place p [n] above) (hargs : Secures plain K p n.args (n.id :: above) args p₁)
    (hmidway : Midway p n above { n with args } p₂)
    (hfunc : Secures plain K p₂ n.func.toList (n.id :: above) func.toList p₃)
    (hp₄ : p₃.update { p₃.current n with func := func.map p₃.current } = q) :
    Midway p n above { n with args, func } q ∧ q.nodes.size = p₃.nodes.size := by
  have hargsPlace := hplace.parts (sublist_args n)
  have hfuncPlace := hplace.parts (sublist_func n)
  have htypePlace := hplace.parts (sublist_type n)
  have hlt := hplace.lt_size_self
  have hwide₃ := hmidway.frame.trans (hfunc.frame.of_parts hplace (sublist_func n))
  have hparent₃ : p₃.parentLabel? n = p.parentLabel? n := by
    rw [hfunc.frame.parentLabel? (Nat.lt_of_lt_of_le (hlt _ hplace.mem_labels) hmidway.frame.size_le)
      hfuncPlace.not_mem_self, hmidway.parent]
  -- neither the arguments nor the declared type have labels of what is applied
  have hargsApart : ∀ a ∈ args, a.id ∉ n.func.toList.flatMap labels ++ n.id :: above := by
    intro a ha
    have hlabel := id_mem_labels hargs.ne_zero ha
    rw [mem_append, not_or]
    exact ⟨hargs.spread.not_mem hlabel hplace.disjoint.1
      fun l hl => hlt l (labels_subset_of_sublist (sublist_func n) hl), hargs.apart hargsPlace _ hlabel⟩
  have htypeApart : ∀ t ∈ n.type, t.id ∉ n.func.toList.flatMap labels ++ n.id :: above := by
    intro t ht
    have hlabel := id_mem_labels htypePlace.ne_zero (mem_toList.mpr ht)
    rw [mem_append, not_or]
    exact ⟨hplace.disjoint.2 _ hlabel, htypePlace.apart _ hlabel⟩
  obtain ⟨e, he, hkeeps⟩ := hfunc.frame.node?_above hmidway.entry mem_cons_self
  have hsame : func.map p₃.current = func := by
    have hlist := hfunc.map_current
    cases func with
    | none => rfl
    | some f => exact congrArg some (List.cons.inj hlist).1
  rw [hsame, current, he, getD_some] at hp₄
  dsimp only at hp₄
  rw [hkeeps.info, hkeeps.kind, hkeeps.args hargsApart, hkeeps.type htypeApart] at hp₄
  obtain ⟨hframe, hentry, hsize, hparents⟩ :=
    hplace.update hwide₃ hparent₃ (e := { n with args, func }) rfl
  rw [hp₄] at hframe hentry hsize hparents
  refine ⟨⟨hwide₃.trans (hframe.of_self hplace), hentry, ?_⟩, hsize⟩
  rw [← hparent₃, parentLabel?, parentLabel?, hparents]

end Midway

/-- What is needed of a node that is checked: if containers are to be wrapped plainly, the heads of all
    loops in it, and the node if it is such a head, wrap plain ones. -/
structure Plain (plain : Prop) (p : Program) (n : Node) : Prop where
  inside : plain → Wrappable n
  head : plain → (loopBody? p n).isSome = true → WrapsPlain n

/-- The pass secures all nodes that need no more than `depth` levels. -/
def SecuresAll (plain : Prop) (K : Node → Node → Prop) (depth : Nat) : Prop :=
  ∀ {n : Node} {p : Program} {above : List Nat} {r q}, Place p [n] above → Plain plain p n →
    (checkSafetyTo depth n).run p = .ok (r, q) →
      Secures plain K p [n] above [r] q ∧ (n.isCall = false → r.id = n.id ∧ r.RootAlone)

theorem secures_args (hK : Respected plain K) {args : List Node}
    (hplace : Place p [n] above) (hwrappable : plain → Wrappable n) (ih : SecuresAll plain K depth)
    (hrun : (n.args.mapM (checkSafetyTo depth)).run p = .ok (args, q)) :
    Secures plain K p n.args (n.id :: above) args q := by
  refine secures_mapM hK (Q := fun p n => Plain plain p n)
    (fun a ha p r q hplaced hhead hrun => (ih hplaced hhead hrun).1) (hplace.parts (sublist_args n)) ?_ hrun
  -- the holder of an argument is the node, which still applies the same
  intro q hframe a ha hparent
  refine ⟨fun h => ((wrappable_iff n).mp (hwrappable h)).2 a (mem_append_right _ ha), fun h hsome => ?_⟩
  obtain ⟨hbinary, hop, loop, hloop, hfor⟩ := loopBody?_isSome hsome
  obtain ⟨e, he, hsame⟩ := hplace.entry_args hframe
  rw [parent?, hparent, (hplace.self_links n n.self_mem_walk).2 a (arg_mem_parts ha),
    bind_some, he] at hloop
  cases hloop
  refine ((wrappable_iff n).mp (hwrappable h)).1 ?_ a ha hbinary hop
  injection hsame [] with _ _ hfunc
  rwa [funcName?, ← hfunc]

/-- The check of the function of a node secures it. -/
theorem secures_func (hK : Respected plain K) {func : Option Node}
    (hplace : Place p n.func.toList (n.id :: above)) (hwrappable : plain → Wrappable n)
    (hentry : p.node? n.id = some e) (he : e.func = n.func)
    (hparent : ∀ f ∈ n.func, p.parentLabel? f = some n.id) (ih : SecuresAll plain K depth)
    (hrun : (n.func.toList.mapM (checkSafetyTo depth)).run p = .ok (func.toList, q)) :
    Secures plain K p n.func.toList (n.id :: above) func.toList q := by
  cases hfunc : n.func with
  | none =>
    rw [hfunc] at hrun hplace
    obtain ⟨hnil, rfl⟩ := mapM_nil_eq_ok.mp hrun
    rw [hnil]
    exact Secures.refl hK hplace
  | some f =>
    rw [hfunc] at hrun hplace
    obtain ⟨g, q', rest, hfirst, hrest, hg⟩ := mapM_cons_eq_ok.mp hrun
    obtain ⟨rfl, rfl⟩ := mapM_nil_eq_ok.mp hrest
    rw [hg]
    refine (ih hplace ⟨fun h => ?_, fun _ hsome => ?_⟩ hfirst).1
    · exact ((wrappable_iff n).mp (hwrappable h)).2 f (mem_append_left _ (by simp [hfunc]))
    · -- what applies `for` is no name, so that it is no head
      obtain ⟨hbinary, _, loop, hloop, hfor⟩ := loopBody?_isSome hsome
      rw [parent?, hparent f hfunc, bind_some, hentry] at hloop
      cases hloop
      rw [funcName?, he, hfunc, bind_some, name?] at hfor
      split at hfor
      · rename_i hkind
        simp [isBinary, binary?, hkind] at hbinary
      · cases hfor

/-- **The pass over a tree.**  The result is in the tables, it stands to the tree in every relation
    that the checks respect, and if the containers that are wrapped have no declared types, no label
    comes to stand at two places. -/
theorem secures_checkSafetyTo (hK : Respected plain K) (depth : Nat) : SecuresAll plain K depth := by
  induction depth with
  | zero =>
    intro n p above r q hplace _ hrun
    cases pure_eq_ok.mp hrun
    exact ⟨Secures.refl hK hplace, fun _ => ⟨rfl, hplace.rootAlone_self⟩⟩
  | succ depth ih =>
    intro n p above r q hplace hplain hrun
    rcases checkSafetyTo_cases hrun with ⟨loop, body, hloop, hrun⟩ |
      ⟨_, args, p₁, func, p₃, p₄, hargs, hfunc, rfl, hexpand⟩
    · have hhead := fun h => hplain.head h (by rw [hloop]; rfl)
      obtain ⟨hsecures, hroot⟩ := secures_checkLoop hK hplace hhead hrun
      exact ⟨hsecures, fun _ => hroot⟩
    · have hargsSecured := secures_args hK hplace hplain.inside ih hargs
      obtain ⟨hmidway, hsize₂, hfuncPlace, hholder⟩ := midway_args hplace hargsSecured rfl
      have hfuncSecured := secures_func hK hfuncPlace hplain.inside hmidway.entry rfl hholder ih hfunc
      obtain ⟨hmidway', hsize₄⟩ := midway_func hplace hargsSecured hmidway hfuncSecured rfl
      generalize p₃.update { p₃.current n with func := func.map p₃.current } = p₄
        at hexpand hmidway' hsize₄
      -- the node with its new parts
      have hne := ne_zero_parts hplace.self_ne_zero hargsSecured.ne_zero
        fun f hf => hfuncSecured.ne_zero f (mem_toList.mpr hf)
      have hparts : Spread plain (n.parts.flatMap labels)
          ((parts { n with args, func }).flatMap labels) p.nodes.size p₄.nodes.size := by
        have hfuncSpread := hfuncSecured.spread
        rw [hsize₂] at hfuncSpread
        rw [hsize₄]
        exact spread_parts hargsSecured.spread hfuncSpread
      have hspread : Spread plain n.labels (labels { n with args, func }) p.nodes.size p₄.nodes.size :=
        spread_node rfl hparts
      have hlt : ∀ l ∈ labels { n with args, func }, l < p₄.nodes.size := by
        intro l hl
        rcases hspread.mem l hl with hl | hl
        · exact Nat.lt_of_lt_of_le (hplace.lt_size_self l hl) hspread.le
        · exact hl.2
      have hground := hmidway'.frame.ground hplace.ground
        fun l hl hl' => hplace.apart l (by simpa using hl') hl
      rw [current, hmidway'.entry, getD_some] at hexpand
      obtain ⟨hframe, hentry, hdrawn, hne', hcases⟩ := expandUnsafe_spec hground
        (Nat.lt_of_lt_of_le hplace.pos hmidway'.frame.size_le) hlt hne hmidway'.entry hexpand
      refine ⟨⟨?_, forall_mem_singleton.mpr hentry, ?_, forall_mem_singleton.mpr hne',
        forall₂_cons.mpr ⟨?_, .nil⟩⟩, fun hcall => ?_⟩
      · rw [flatMap_singleton]
        exact hmidway'.frame.trans (hframe.mono (nil_subset _) (List.Subset.refl _)
          (subset_append_right _ _))
      · rw [flatMap_singleton, flatMap_singleton]
        exact hspread.trans (Spread.of_drawn hdrawn)
      · rcases hcases with ⟨rfl, _⟩ | ⟨hcall, arg, harg, rfl⟩
        · exact hK.parts hargsSecured.kept hfuncSecured.kept
        · obtain rfl : args = [arg] := harg
          exact hK.branch hargsSecured.kept hfuncSecured.kept hcall
            (hargsSecured.ne_zero arg mem_cons_self)
      · rcases hcases with ⟨rfl, _⟩ | ⟨hcalls, _⟩
        · exact ⟨rfl, hplace.rootAlone rfl hparts⟩
        · have hnot : n.isCall = true := (Bool.and_eq_true_iff.mp hcalls).1
          rw [hcall] at hnot
          cases hnot

/-! ### Declared types -/

/-- What the checks keep of a node. -/
structure TypesKept (n n' : Node) : Prop where
  declarable : Declarable n → Declarable n'
  untyped : Untyped n → Untyped n'

theorem TypesKept.refl : TypesKept n n := ⟨id, id⟩

theorem TypesKept.parts {args : List Node} {func : Option Node} (hargs : List.Forall₂ TypesKept n.args args)
    (hfunc : List.Forall₂ TypesKept n.func.toList func.toList) : TypesKept n { n with func, args } := by
  have hlist : ∀ {P : Node → Prop} {as bs : List Node}, List.Forall₂ TypesKept as bs →
      (∀ a b, TypesKept a b → P a → P b) → (∀ a ∈ as, P a) → ∀ b ∈ bs, P b := by
    intro P as bs h hP has b hb
    obtain ⟨a, ha, hab⟩ := Failing.exists_mem_of_forall₂ h hb
    exact hP a b hab (has a ha)
  have htail : ∀ {as bs : List Node}, List.Forall₂ TypesKept as bs → List.Forall₂ TypesKept as.tail bs.tail := by
    rintro _ _ (_ | ⟨_, h⟩)
    · exact .nil
    · exact h
  refine ⟨fun h => ?_, fun h => ?_⟩
  · obtain ⟨hcolon, hparts⟩ := (declarable_iff n).mp h
    exact .make (fun h => hlist (htail hargs) (fun _ _ h => h.untyped) (hcolon h))
      (hlist (rel_append hfunc hargs) (fun _ _ h => h.declarable) hparts)
  · obtain ⟨hself, hnfunc, hnargs, hntype⟩ := forall_mem_walk_iff.mp h
    refine forall_mem_walk_iff.mpr ⟨hself, fun f hf => ?_, ?_, hntype⟩
    · refine hlist hfunc (fun _ _ h => h.untyped) (fun g hg => ?_) f (mem_toList.mpr hf)
      exact hnfunc g (mem_toList.mp hg)
    · exact hlist hargs (fun _ _ h => h.untyped) hnargs

theorem TypesKept.wrapContainer (h : Untyped iterable.copy) (k k' : Nat) :
    TypesKept iterable (wrapContainer iterable k k') := by
  have hcopy : Untyped (iterable.copy.unlabel.label k).1 := (untyped_label k).mpr (unlabel_spec _ h).2
  refine ⟨fun h => ?_, fun h => ?_⟩
  · exact (declarable_label k').mpr (declarable_banReferences h hcopy.declarable)
  · exact (untyped_label k').mpr (untyped_banReferences h hcopy)

theorem TypesKept.unsafeBranch {arg : Node} (h : n.args = [arg]) (k : Nat) :
    TypesKept n ((unsafeBranch (branchStatements arg)).label k).1 := by
  have harg : arg ∈ n.args := by simp [h]
  refine ⟨fun h => ?_, fun h => ?_⟩
  · refine (declarable_label k).mpr (declarable_unsafeBranch ?_)
    have hdeclarable := h.part (mem_append_right _ harg)
    rw [branchStatements]
    split
    · exact fun a ha => hdeclarable.part (mem_append_right _ ha)
    · exact forall_mem_singleton.mpr hdeclarable
  · refine (untyped_label k).mpr (untyped_unsafeBranch ?_)
    have huntyped := h.part (arg_mem_parts harg)
    rw [branchStatements]
    split
    · exact fun a ha => huntyped.part (arg_mem_parts ha)
    · exact forall_mem_singleton.mpr huntyped

theorem TypesKept.trans {r : Node} (h : TypesKept n m) (h' : TypesKept m r) : TypesKept n r :=
  ⟨fun hn => h'.declarable (h.declarable hn), fun hn => h'.untyped (h.untyped hn)⟩

/-- Where containers without types are wrapped, the checks keep what recording types needs. -/
theorem respected_typesKept : Respected True TypesKept where
  refl := fun _ => TypesKept.refl
  parts := fun hargs hfunc => TypesKept.parts hargs hfunc
  wrap := fun hargs _ hplain => by
    refine TypesKept.parts ?_ (forall₂_same.mpr fun _ _ => TypesKept.refl)
    rw [hargs]
    exact .cons TypesKept.refl (.cons (.wrapContainer (hplain trivial) _ _) .nil)
  branch := fun hargs hfunc _ _ => (TypesKept.parts hargs hfunc).trans (.unsafeBranch rfl _)

end Pass

end Cppward.Analysis
