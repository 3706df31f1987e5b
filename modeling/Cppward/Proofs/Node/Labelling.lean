import Cppward.Analysis.DeclaredType
import Cppward.Node.Copy
import Cppward.Node.Label
import Cppward.Proofs.Node.Parts
import Mathlib.Data.List.Perm.Basic
import Mathlib.Data.List.Perm.Subperm

namespace Cppward.Node

open List

/-!
# Giving labels to trees

A tree that is labelled keeps its old labels, and the new ones are a range behind them.
-/

variable {n m a : Node} {l : Nat} {ns : List Node} {o : Option Node}

def labels (n : Node) : List Nat := (n.walk.map id).filter (· != 0)

def ownLabel (n : Node) : List Nat := if n.id = 0 then [] else [n.id]

theorem labels_eq (n : Node) : n.labels = n.ownLabel ++ n.parts.flatMap labels := by
  rw [labels, walk_eq, map_cons, filter_cons, map_flatMap, filter_flatMap]
  show (if (n.id != 0) = true then _ else _) = n.ownLabel ++ n.parts.flatMap fun a => a.labels
  by_cases h : n.id = 0 <;> simp [ownLabel, h] <;> rfl

theorem mem_labels : l ∈ n.labels ↔ l ≠ 0 ∧ ∃ m ∈ n.walk, m.id = l := by
  simp [labels, and_comm]

/-! ### New labels -/

/-- From the labels `old`, those of `new` arise with all numbers from `k` up to `k'`. -/
def Relabelled (old new : List Nat) (k k' : Nat) : Prop :=
  k ≤ k' ∧ new.Perm (old ++ List.range' k (k' - k))

namespace Relabelled

variable {old new old' new' : List Nat} {k k' k'' : Nat}

theorem refl : Relabelled old old k k := ⟨Nat.le_refl k, by simp⟩

theorem all (old : List Nat) (hle : k ≤ k') :
    Relabelled old (old ++ List.range' k (k' - k)) k k' := ⟨hle, List.Perm.refl _⟩

theorem append (h : Relabelled old new k k') (h' : Relabelled old' new' k' k'') :
    Relabelled (old ++ old') (new ++ new') k k'' := by
  obtain ⟨hle, hperm⟩ := h
  obtain ⟨hle', hperm'⟩ := h'
  refine ⟨Nat.le_trans hle hle', (hperm.append hperm').trans ?_⟩
  have hrange : List.range' k (k'' - k) = List.range' k (k' - k) ++ List.range' k' (k'' - k') := by
    rw [show k'' - k = (k' - k) + (k'' - k') by omega, ← range'_append_1,
      show k + (k' - k) = k' by omega]
  rw [hrange, append_assoc, append_assoc]
  refine List.Perm.append_left old ?_
  rw [← append_assoc, ← append_assoc]
  exact List.Perm.append_right _ perm_append_comm

theorem perm (h : Relabelled old new k k') (hold : old'.Perm old) (hnew : new'.Perm new) :
    Relabelled old' new' k k' :=
  ⟨h.1, hnew.trans (h.2.trans (hold.symm.append_right _))⟩

theorem nodup (h : Relabelled old new k k') (hold : old.Nodup) (hlt : ∀ l ∈ old, l < k) :
    new.Nodup := by
  refine h.2.nodup_iff.mpr (nodup_append.mpr ⟨hold, nodup_range', ?_⟩)
  intro l hl l' hl'
  have := hlt l hl
  have := (mem_range'_1.mp hl').1
  omega

theorem mem (h : Relabelled old new k k') (hl : l ∈ new) : l ∈ old ∨ k ≤ l ∧ l < k' := by
  rcases mem_append.mp (h.2.mem_iff.mp hl) with hl | hl
  · exact .inl hl
  · have := mem_range'_1.mp hl
    have := h.1
    omega

end Relabelled

/-- The labels `new` are some of `old` and of the numbers from `k` up to `k'`, each used once. -/
def Drawn (old new : List Nat) (k k' : Nat) : Prop :=
  k ≤ k' ∧ new.Subperm (old ++ List.range' k (k' - k))

theorem Relabelled.drawn {old new : List Nat} {k k' : Nat} (h : Relabelled old new k k') :
    Drawn old new k k' := ⟨h.1, h.2.subperm⟩

namespace Drawn

variable {old new old' new' : List Nat} {k k' k'' : Nat}

theorem refl : Drawn old old k k := Relabelled.refl.drawn

theorem append (h : Drawn old new k k') (h' : Drawn old' new' k' k'') :
    Drawn (old ++ old') (new ++ new') k k'' := by
  have hboth := (Relabelled.all old h.1).append (Relabelled.all old' h'.1)
  exact ⟨hboth.1, (h.2.append h'.2).trans hboth.2.subperm⟩

theorem mono (h : Drawn old new k k') (hold : old.Subperm old') (hnew : new'.Subperm new) :
    Drawn old' new' k k' :=
  ⟨h.1, hnew.trans (h.2.trans ((subperm_append_right _).mpr hold))⟩

theorem trans (h : Drawn old old' k k') (h' : Drawn old' new k' k'') : Drawn old new k k'' := by
  have hboth := (Relabelled.all old h.1).append (Relabelled.all [] h'.1)
  rw [append_nil, nil_append] at hboth
  have hsub := ((subperm_append_right (List.range' k' (k'' - k'))).mpr h.2)
  exact ⟨hboth.1, h'.2.trans (hsub.trans hboth.2.subperm)⟩

theorem nodup (h : Drawn old new k k') (hold : old.Nodup) (hlt : ∀ l ∈ old, l < k) : new.Nodup := by
  obtain ⟨mid, hperm, hsub⟩ := h.2
  exact hperm.nodup_iff.mp (((Relabelled.all old h.1).nodup hold hlt).sublist hsub)

theorem mem (h : Drawn old new k k') (hl : l ∈ new) : l ∈ old ∨ k ≤ l ∧ l < k' :=
  (Relabelled.all old h.1).mem (h.2.subset hl)

end Drawn

/-- The labels `new` are some of `old` and of the numbers from `k` up to `k'`.  If `once` holds, each
    is used once. -/
structure Spread (once : Prop) (old new : List Nat) (k k' : Nat) : Prop where
  le : k ≤ k'
  mem : ∀ l ∈ new, l ∈ old ∨ k ≤ l ∧ l < k'
  drawn : once → Drawn old new k k'

namespace Spread

variable {once : Prop} {old new old' new' : List Nat} {k k' k'' : Nat}

theorem of_drawn (h : Drawn old new k k') : Spread once old new k k' :=
  ⟨h.1, fun _ hl => h.mem hl, fun _ => h⟩

theorem refl : Spread once old old k k := of_drawn Drawn.refl

theorem append (h : Spread once old new k k') (h' : Spread once old' new' k' k'') :
    Spread once (old ++ old') (new ++ new') k k'' := by
  have hle := h.le
  have hle' := h'.le
  refine ⟨by omega, fun l hl => ?_, fun honce => (h.drawn honce).append (h'.drawn honce)⟩
  rcases mem_append.mp hl with hl | hl
  · rcases h.mem l hl with hold | hnew
    · exact .inl (mem_append_left _ hold)
    · omega
  · rcases h'.mem l hl with hold | hnew
    · exact .inl (mem_append_right _ hold)
    · omega

theorem mono (h : Spread once old new k k') (hold : old.Subperm old') (hnew : new'.Subperm new) :
    Spread once old' new' k k' :=
  ⟨h.le, fun l hl => (h.mem l (hnew.subset hl)).imp_left (hold.subset ·),
    fun honce => (h.drawn honce).mono hold hnew⟩

theorem trans (h : Spread once old old' k k') (h' : Spread once old' new k' k'') :
    Spread once old new k k'' := by
  have hle := h.le
  have hle' := h'.le
  refine ⟨by omega, fun l hl => ?_, fun honce => (h.drawn honce).trans (h'.drawn honce)⟩
  rcases h'.mem l hl with hold | hnew
  · rcases h.mem l hold with hold | hnew
    · exact .inl hold
    · omega
  · omega

/-- Labels that were drawn are not among labels that were in use elsewhere. -/
theorem not_mem (h : Spread once old new k k') (hl : l ∈ new) {ls : List Nat}
    (hold : ∀ l ∈ old, l ∉ ls) (hlt : ∀ l ∈ ls, l < k) : l ∉ ls := by
  intro hmem
  rcases h.mem l hl with hl | hl
  · exact hold l hl hmem
  · have := hlt l hmem
    omega

end Spread

theorem labels_perm (n : Node) : n.labels.Perm (n.ownLabel ++ (n.args.flatMap labels ++
    (n.func.toList.flatMap labels ++ n.type.toList.flatMap labels))) := by
  rw [labels_eq, parts, flatMap_append, flatMap_append]
  refine List.Perm.append_left _ ?_
  rw [← append_assoc]
  exact List.Perm.append_right _ perm_append_comm

section Label

variable {next : Nat}

theorem label_list (hns : ∀ n ∈ ns, ∀ next, 0 < next →
    Relabelled n.labels (n.label next).1.labels next (n.label next).2) :
    ∀ next, 0 < next → Relabelled (ns.flatMap labels) ((labelList next ns).1.flatMap labels) next
      (labelList next ns).2 := by
  induction ns with
  | nil => exact fun next _ => .refl
  | cons n ns ih =>
    rw [forall_mem_cons] at hns
    intro next hnext
    have hfirst := hns.1 next hnext
    exact hfirst.append (ih hns.2 _ (Nat.lt_of_lt_of_le hnext hfirst.1))

theorem label_option (ho : ∀ n ∈ o, ∀ next, 0 < next →
    Relabelled n.labels (n.label next).1.labels next (n.label next).2) (hnext : 0 < next) :
    Relabelled (o.toList.flatMap labels) ((labelOption next o).1.toList.flatMap labels) next
      (labelOption next o).2 := by
  cases o with
  | none => exact .refl
  | some n => simpa [labelOption] using ho n rfl next hnext

/-- A node gets its label first, then its arguments, what it applies and its declared type. -/
theorem label_eq (n : Node) (next : Nat) : n.label next =
    let k := if n.id = 0 then next + 1 else next
    let args := labelList k n.args
    let func := labelOption args.2 n.func
    let type := labelOption func.2 n.type
    ({ info := if n.id = 0 then { n.info with id := next } else n.info
       kind := n.kind, func := func.1, args := args.1, type := type.1 }, type.2) := by
  obtain ⟨info, kind, func, args, type⟩ := n
  rw [label]
  by_cases h : info.id = 0 <;> simp [id, h]

theorem id_label (n : Node) (next : Nat) :
    (n.label next).1.id = if n.id = 0 then next else n.id := by
  rw [label_eq]
  by_cases h : n.id = 0
  · simp only [h, if_true]
    rfl
  · simp only [h, if_false]
    rfl

/-- A tree that is labelled has its old labels and a range of new ones. -/
theorem labels_label (n : Node) : ∀ next, 0 < next →
    Relabelled n.labels (n.label next).1.labels next (n.label next).2 := by
  induction n using Node.induction with
  | step n ihfunc ihargs ihtype =>
    intro next hnext
    have hown : Relabelled n.ownLabel (n.label next).1.ownLabel next
        (if n.id = 0 then next + 1 else next) := by
      rw [ownLabel, ownLabel, id_label]
      by_cases h : n.id = 0
      · simp [h, Nat.pos_iff_ne_zero.mp hnext, Relabelled]
      · simpa [h] using Relabelled.refl
    have hargs := label_list ihargs _ (Nat.lt_of_lt_of_le hnext hown.1)
    have hfunc := label_option ihfunc (Nat.lt_of_lt_of_le hnext (Nat.le_trans hown.1 hargs.1))
    have htype := label_option ihtype
      (Nat.lt_of_lt_of_le hnext (Nat.le_trans hown.1 (Nat.le_trans hargs.1 hfunc.1)))
    have hall := hown.append (hargs.append (hfunc.append htype))
    refine Relabelled.perm ?_ (labels_perm n) (labels_perm _)
    rw [label_eq]
    rw [label_eq] at hall
    exact hall

theorem mem_labelList (hm : m ∈ (labelList next ns).1)
    (hnext : 0 < next) : ∃ n ∈ ns, ∃ k, next ≤ k ∧ m = (n.label k).1 := by
  induction ns generalizing next with
  | nil => cases hm
  | cons n ns ih =>
    rcases mem_cons.mp hm with rfl | hm
    · exact ⟨n, mem_cons_self, next, Nat.le_refl next, rfl⟩
    · have hle := (labels_label n next hnext).1
      obtain ⟨n', hn', k, hk, heq⟩ := ih hm (Nat.lt_of_lt_of_le hnext hle)
      exact ⟨n', mem_cons_of_mem n hn', k, Nat.le_trans hle hk, heq⟩

theorem mem_labelOption (hm : m ∈ (labelOption next o).1) : ∃ n ∈ o, m = (n.label next).1 := by
  cases o with
  | none => cases hm
  | some n =>
    cases hm
    exact ⟨n, rfl, rfl⟩

/-- The parts of a tree that is labelled are its parts, labelled, in the same fields. -/
theorem mem_fields_label {n part : Node} (hnext : 0 < next) :
    (part ∈ (n.label next).1.func → ∃ a ∈ n.func, ∃ k, next ≤ k ∧ part = (a.label k).1) ∧
      (part ∈ (n.label next).1.args → ∃ a ∈ n.args, ∃ k, next ≤ k ∧ part = (a.label k).1) ∧
        (part ∈ (n.label next).1.type → ∃ a ∈ n.type, ∃ k, next ≤ k ∧ part = (a.label k).1) := by
  have hown : next ≤ if n.id = 0 then next + 1 else next := by split <;> omega
  have hargs : next ≤ (labelList (if n.id = 0 then next + 1 else next) n.args).2 :=
    Nat.le_trans hown (label_list (fun a _ => labels_label a) _ (Nat.lt_of_lt_of_le hnext hown)).1
  have hfunc : next ≤ (labelOption (labelList (if n.id = 0 then next + 1 else next) n.args).2
      n.func).2 := Nat.le_trans hargs
    (label_option (fun a _ => labels_label a) (Nat.lt_of_lt_of_le hnext hargs)).1
  rw [label_eq]
  refine ⟨fun h => ?_, fun h => ?_, fun h => ?_⟩
  · obtain ⟨a, ha, rfl⟩ := mem_labelOption h
    exact ⟨a, ha, _, hargs, rfl⟩
  · obtain ⟨a, ha, k, hk, rfl⟩ := mem_labelList h (Nat.lt_of_lt_of_le hnext hown)
    exact ⟨a, ha, k, Nat.le_trans hown hk, rfl⟩
  · obtain ⟨a, ha, rfl⟩ := mem_labelOption h
    exact ⟨a, ha, _, hfunc, rfl⟩

theorem exists_of_mem_parts_label {part : Node} (hnext : 0 < next)
    (h : part ∈ (n.label next).1.parts) : ∃ a ∈ n.parts, ∃ k, next ≤ k ∧ part = (a.label k).1 := by
  obtain ⟨hfunc, hargs, htype⟩ := @mem_fields_label next n part hnext
  simp only [parts, mem_append, Option.mem_toList] at h
  rcases h with (h | h) | h
  · obtain ⟨a, ha, hk⟩ := hfunc h
    exact ⟨a, func_mem_parts ha, hk⟩
  · obtain ⟨a, ha, hk⟩ := hargs h
    exact ⟨a, arg_mem_parts ha, hk⟩
  · obtain ⟨a, ha, hk⟩ := htype h
    exact ⟨a, type_mem_parts ha, hk⟩

theorem label_mem_labelList (ha : a ∈ ns) : ∀ next, ∃ k, (a.label k).1 ∈ (labelList next ns).1 := by
  induction ns with
  | nil => cases ha
  | cons n ns ih =>
    intro next
    rcases mem_cons.mp ha with rfl | ha
    · exact ⟨next, mem_cons_self⟩
    · obtain ⟨k, hk⟩ := ih ha (n.label next).2
      exact ⟨k, mem_cons_of_mem _ hk⟩

theorem label_mem_labelOption (ha : a ∈ o) : ∃ k, (a.label k).1 ∈ (labelOption next o).1 := by
  cases ha
  exact ⟨next, rfl⟩

/-- Every part of a tree is found, labelled, in the labelled tree, in the same field. -/
theorem label_mem_fields (n : Node) (next : Nat) :
    (∀ f ∈ n.func, ∃ k, (f.label k).1 ∈ (n.label next).1.func) ∧
      (∀ a ∈ n.args, ∃ k, (a.label k).1 ∈ (n.label next).1.args) ∧
        ∀ t ∈ n.type, ∃ k, (t.label k).1 ∈ (n.label next).1.type := by
  rw [label_eq]
  exact ⟨fun f hf => label_mem_labelOption hf, fun a ha => label_mem_labelList ha _,
    fun t ht => label_mem_labelOption ht⟩

/-- A tree that is labelled everywhere is left alone. -/
theorem label_eq_self (h : ∀ m ∈ n.walk, m.id ≠ 0) : ∀ next, n.label next = (n, next) := by
  induction n using Node.induction with
  | step n ihfunc ihargs ihtype =>
    obtain ⟨hself, hfunc, hargs, htype⟩ := forall_mem_walk_iff.mp h
    have hlist : ∀ ns : List Node, (∀ a ∈ ns, ∀ next, a.label next = (a, next)) →
        ∀ next, labelList next ns = (ns, next) := by
      intro ns hns
      induction ns with
      | nil => exact fun _ => rfl
      | cons n ns ih =>
        rw [forall_mem_cons] at hns
        intro next
        simp only [labelList, hns.1, ih hns.2]
    have hoption : ∀ o : Option Node, (∀ a ∈ o, ∀ next, a.label next = (a, next)) →
        ∀ next, labelOption next o = (o, next) := by
      intro o ho next
      cases o with
      | none => rfl
      | some a => rw [labelOption, ho a rfl next]
    intro next
    rw [label_eq]
    simp only [if_neg hself, hlist n.args fun a ha => ihargs a ha (hargs a ha),
      hoption n.func fun f hf => ihfunc f hf (hfunc f hf),
      hoption n.type fun t ht => ihtype t ht (htype t ht)]
    cases n
    rfl

theorem id_ne_zero_of_mem_walk_label (n : Node) : ∀ next, 0 < next →
    ∀ m ∈ (n.label next).1.walk, m.id ≠ 0 := by
  induction n using partsInduction with
  | step n ih =>
    intro next hnext m hm
    rw [walk_eq] at hm
    rcases mem_cons.mp hm with rfl | hm
    · rw [id_label]
      split <;> omega
    · obtain ⟨part, hpart, hm⟩ := mem_flatMap.mp hm
      obtain ⟨a, ha, k, hk, rfl⟩ := exists_of_mem_parts_label hnext hpart
      exact ih a ha k (Nat.lt_of_lt_of_le hnext hk) m hm

/-- The label of the root is on no other node. -/
def RootAlone (n : Node) : Prop := ∀ a ∈ n.parts, n.id ∉ a.labels

/-- The label of the root stays alone when others are added. -/
theorem RootAlone.label (h : RootAlone n) (hnext : 0 < next)
    (hlt : ∀ l ∈ n.labels, l < next) : RootAlone (n.label next).1 := by
  have hperm := (labels_label n next hnext).2
  have hid := id_label n next
  have hne := id_ne_zero_of_mem_walk_label n next hnext _ (self_mem_walk _)
  generalize (n.label next).1 = t at hperm hid hne ⊢
  generalize (n.label next).2 - next = count at hperm
  intro a ha hmem
  have hrange : (List.range' next count).count t.id ≤ 1 := nodup_iff_count_le_one.mp nodup_range' _
  have hparts : 0 < (t.parts.flatMap labels).count t.id :=
    count_pos_iff.mpr (mem_flatMap.mpr ⟨a, ha, hmem⟩)
  have hcount := hperm.count_eq t.id
  rw [labels_eq t, ownLabel, if_neg hne, count_append, count_append, count_singleton_self]
    at hcount
  by_cases hzero : n.id = 0
  · rw [if_pos hzero] at hid
    have hold : n.labels.count t.id = 0 := count_eq_zero.mpr fun hl => by
      have := hlt _ hl
      omega
    omega
  · rw [if_neg hzero] at hid
    have hold : (n.parts.flatMap labels).count t.id = 0 := count_eq_zero.mpr fun hl => by
      obtain ⟨b, hb, hl⟩ := mem_flatMap.mp hl
      exact h b hb (hid ▸ hl)
    have hnew : (List.range' next count).count t.id = 0 := count_eq_zero.mpr fun hl => by
      have := (mem_range'_1.mp hl).1
      have := hlt n.id (mem_labels.mpr ⟨hzero, n, n.self_mem_walk, rfl⟩)
      omega
    rw [labels_eq n, ownLabel, if_neg hzero, count_append, hid, count_singleton_self, ← hid]
      at hcount
    omega

/-- Where all nodes have labels, `labels` has them all. -/
theorem labels_eq_map (h : ∀ m ∈ n.walk, m.id ≠ 0) : n.labels = n.walk.map id := by
  rw [labels, filter_eq_self]
  intro l hl
  obtain ⟨m, hm, rfl⟩ := mem_map.mp hl
  simpa using h m hm

end Label

/-! ### Trees without labels -/

mutual
/-- The tree without its labels. -/
def anonymous : Node → Node
  | ⟨info, kind, func, args, type⟩ =>
    ⟨{ info with id := 0 }, kind, anonymousOption func, anonymousList args, anonymousOption type⟩

def anonymousOption : Option Node → Option Node
  | none => none
  | some n => some n.anonymous

def anonymousList : List Node → List Node
  | [] => []
  | n :: ns => n.anonymous :: anonymousList ns
end

theorem anonymousOption_eq (o : Option Node) : anonymousOption o = o.map anonymous := by
  cases o <;> rfl

theorem anonymousList_eq (ns : List Node) : anonymousList ns = ns.map anonymous :=
  eq_map rfl (fun _ _ => rfl) ns

theorem anonymous_eq (n : Node) : n.anonymous =
    { info := { n.info with id := 0 }, kind := n.kind, func := n.func.map anonymous,
      args := n.args.map anonymous, type := n.type.map anonymous } := by
  obtain ⟨info, kind, func, args, type⟩ := n
  rw [anonymous, anonymousOption_eq, anonymousOption_eq, anonymousList_eq]

@[simp]
theorem kind_anonymous (n : Node) : n.anonymous.kind = n.kind := by rw [anonymous_eq]

@[simp]
theorem args_anonymous (n : Node) : n.anonymous.args = n.args.map anonymous := by rw [anonymous_eq]

@[simp]
theorem func_anonymous (n : Node) : n.anonymous.func = n.func.map anonymous := by rw [anonymous_eq]

@[simp]
theorem type_anonymous (n : Node) : n.anonymous.type = n.type.map anonymous := by rw [anonymous_eq]

@[simp]
theorem binary?_anonymous (n : Node) : n.anonymous.binary? = n.binary? := by
  rw [binary?, kind_anonymous, binary?]

theorem parts_anonymous (n : Node) : n.anonymous.parts = n.parts.map anonymous := by
  simp only [parts, func_anonymous, args_anonymous, type_anonymous, map_append,
    Option.toList_map]

theorem walk_anonymous (n : Node) : n.anonymous.walk = n.walk.map anonymous := by
  induction n using partsInduction with
  | step n ih =>
    rw [walk_eq, walk_eq n, parts_anonymous, map_cons, flatMap_map, map_flatMap]
    exact congrArg _ (flatMap_congr ih)

/-- Labels are all that a tree gets when it is labelled. -/
theorem anonymous_label (n : Node) : ∀ next, (n.label next).1.anonymous = n.anonymous := by
  have hlist : ∀ ns : List Node, (∀ n ∈ ns, ∀ next, (n.label next).1.anonymous = n.anonymous) →
      ∀ next, (labelList next ns).1.map anonymous = ns.map anonymous := by
    intro ns hns
    induction ns with
    | nil => exact fun _ => rfl
    | cons n ns ih =>
      rw [forall_mem_cons] at hns
      intro next
      rw [labelList, map_cons, map_cons, hns.1, ih hns.2]
  have hoption : ∀ o : Option Node, (∀ n ∈ o, ∀ next, (n.label next).1.anonymous = n.anonymous) →
      ∀ next, (labelOption next o).1.map anonymous = o.map anonymous := by
    intro o ho next
    cases o with
    | none => rfl
    | some n => exact congrArg some (ho n rfl next)
  induction n using Node.induction with
  | step n ihfunc ihargs ihtype =>
    intro next
    rw [label_eq, anonymous_eq, anonymous_eq n]
    simp only [hlist n.args ihargs, hoption n.func ihfunc, hoption n.type ihtype]
    congr 1
    by_cases h : n.id = 0 <;> simp [h]

end Cppward.Node
