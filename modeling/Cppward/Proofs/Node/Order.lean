import Cppward.Node.TypeList
import Cppward.Proofs.Node.Parts
import Mathlib.Data.List.TakeWhile

namespace Cppward.Node

open List

/-!
# The order of a search

A search takes a node, then its arguments, then the node that it applies.

* `unstopped` — all nodes in this order that have no stopped node above them and are not stopped.
* `sublist_findAll` — a search finds a part of these; `findAll_eq_sought_iff` says when it finds
  all that pass the test.
* `comesBefore_order` — which of two labels is met first is read off this order.
-/

variable {f g : Node → List Node} {ns : List Node}
variable {test stop : Node → Bool} {n m a : Node}

mutual
/-- The nodes of a tree in the order node, arguments, applied node, without the stopped nodes and
    what is below them. -/
def unstopped (stop : Node → Bool) : Node → List Node
  | ⟨info, kind, func, args, type⟩ =>
    if stop ⟨info, kind, func, args, type⟩ then []
    else ⟨info, kind, func, args, type⟩ :: unstoppedList stop args ++ unstoppedOption stop func

def unstoppedOption (stop : Node → Bool) : Option Node → List Node
  | none => []
  | some n => unstopped stop n

def unstoppedList (stop : Node → Bool) : List Node → List Node
  | [] => []
  | n :: ns => unstopped stop n ++ unstoppedList stop ns
end

/-- All nodes of a tree in the order of a search; declared types are not searched. -/
def inOrder (n : Node) : List Node := n.unstopped fun _ => false

def searched (n : Node) : List Node := n.args ++ n.func.toList

theorem unstoppedList_eq (ns : List Node) : unstoppedList stop ns = ns.flatMap (unstopped stop) :=
  eq_flatMap rfl (fun _ _ => rfl) ns

theorem unstopped_eq (n : Node) : n.unstopped stop =
    if stop n then [] else n :: n.searched.flatMap (unstopped stop) := by
  obtain ⟨info, kind, func, args, type⟩ := n
  rw [unstopped, unstoppedList_eq, searched, flatMap_append]
  cases func <;> simp [unstoppedOption]

theorem inOrder_eq (n : Node) : n.inOrder = n :: n.searched.flatMap inOrder := by
  rw [inOrder, unstopped_eq]
  rfl

theorem searchedInduction {motive : Node → Prop}
    (step : ∀ n : Node, (∀ a ∈ n.searched, motive a) → motive n) (n : Node) : motive n :=
  partsInduction (fun n ih => step n fun a ha => ih a ((mem_append.mp ha).elim arg_mem_parts
    fun ha => func_mem_parts (Option.mem_toList.mp ha))) n

/-! ### Searching with a stop -/

/-- The parts that are searched: those before the first stopped argument, or all of them. -/
def reached (stop : Node → Bool) (n : Node) : List Node :=
  if n.args.any stop then n.args.takeWhile (!stop ·) else n.searched

/-- The parts behind the first stopped argument. -/
def skipped (stop : Node → Bool) (n : Node) : List Node :=
  if n.args.any stop then n.args.dropWhile (!stop ·) ++ n.func.toList else []

theorem reached_append_skipped (stop : Node → Bool) (n : Node) :
    reached stop n ++ skipped stop n = n.searched := by
  unfold reached skipped searched
  split
  · rw [← append_assoc, takeWhile_append_dropWhile]
  · rw [append_nil]

theorem findAllArgs_eq (ns : List Node) : findAllArgs test stop ns =
    ((ns.takeWhile (!stop ·)).flatMap (findAll test stop), ns.any stop) := by
  induction ns with
  | nil => rfl
  | cons n ns ih => cases hn : stop n <;> simp [findAllArgs, hn, ih]

theorem findAll_eq (n : Node) : n.findAll test stop =
    if stop n then [] else
      (if test n then [n] else []) ++ (reached stop n).flatMap (findAll test stop) := by
  obtain ⟨info, kind, func, args, type⟩ := n
  rw [findAll, findAllArgs_eq, reached]
  cases hany : args.any stop with
  | true => simp
  | false =>
    have htake : args.takeWhile (!stop ·) = args := by
      rw [takeWhile_eq_self_iff]
      simpa using hany
    cases func <;> simp [searched, findAllOption, htake]

/-- What should be found: the nodes without a stop that pass the test. -/
def sought (test stop : Node → Bool) (n : Node) : List Node := (n.unstopped stop).filter test

theorem sought_eq (n : Node) : n.sought test stop =
    if stop n then [] else
      (if test n then [n] else []) ++ n.searched.flatMap (sought test stop) := by
  rw [sought, unstopped_eq]
  split
  · rfl
  · rw [filter_cons, filter_flatMap]
    split <;> rfl

theorem sublist_flatMap
    (h : ∀ a ∈ ns, (f a).Sublist (g a)) : (ns.flatMap f).Sublist (ns.flatMap g) := by
  induction ns with
  | nil => exact .slnil
  | cons a ns ih =>
    obtain ⟨ha, hns⟩ := forall_mem_cons.mp h
    exact ha.append (ih hns)

theorem append_eq_append_iff {as bs cs ds : List Node} (h : as.Sublist cs) (h' : bs.Sublist ds) :
    as ++ bs = cs ++ ds ↔ as = cs ∧ bs = ds := by
  refine ⟨fun heq => ?_, fun ⟨ha, hb⟩ => by rw [ha, hb]⟩
  have hlength := congrArg List.length heq
  rw [length_append, length_append] at hlength
  have := h.length_le
  have := h'.length_le
  exact ⟨h.eq_of_length (by omega), h'.eq_of_length (by omega)⟩

theorem flatMap_eq_flatMap_iff
    (h : ∀ a ∈ ns, (f a).Sublist (g a)) : ns.flatMap f = ns.flatMap g ↔ ∀ a ∈ ns, f a = g a := by
  induction ns with
  | nil => simp
  | cons a ns ih =>
    obtain ⟨ha, hns⟩ := forall_mem_cons.mp h
    rw [flatMap_cons, flatMap_cons, append_eq_append_iff ha (sublist_flatMap hns), ih hns,
      forall_mem_cons]

/-- A search finds nothing else, and keeps the order. -/
theorem sublist_findAll (n : Node) : (n.findAll test stop).Sublist (n.sought test stop) := by
  induction n using searchedInduction with
  | step n ih =>
    rw [findAll_eq, sought_eq, ← reached_append_skipped stop n, flatMap_append]
    split
    · exact List.Sublist.refl _
    · refine (List.Sublist.refl _).append (.trans ?_ (sublist_append_left _ _))
      refine sublist_flatMap fun a ha => ih a ?_
      rw [← reached_append_skipped stop n]
      exact mem_append_left _ ha

theorem mem_unstopped_of_part (hm : m ∈ n.unstopped stop) (ha : a ∈ m.searched) :
    a.unstopped stop ⊆ n.unstopped stop := by
  induction n using searchedInduction with
  | step n ih =>
    rw [unstopped_eq] at hm
    split at hm
    · cases hm
    · rename_i hstop
      rw [unstopped_eq n, if_neg hstop]
      intro x hx
      refine mem_cons_of_mem n ?_
      rcases mem_cons.mp hm with rfl | hm
      · exact mem_flatMap.mpr ⟨a, ha, hx⟩
      · obtain ⟨part, hpart, hm⟩ := mem_flatMap.mp hm
        exact mem_flatMap.mpr ⟨part, hpart, ih part hpart hm hx⟩

/-- Nothing that is sought stands behind a stopped argument. -/
def NothingSkipped (test stop : Node → Bool) (n : Node) : Prop :=
  ∀ m ∈ n.unstopped stop, ∀ a ∈ skipped stop m, a.sought test stop = []

theorem nothingSkipped_of_sought_eq_nil (h : n.sought test stop = []) : NothingSkipped test stop n := by
  intro m hm a ha
  have hpart : a ∈ m.searched := by
    rw [← reached_append_skipped stop m]
    exact mem_append_right _ ha
  rw [sought, filter_eq_nil_iff] at h ⊢
  exact fun x hx => h x (mem_unstopped_of_part hm hpart hx)

theorem nothingSkipped_iff (hstop : stop n = false) : NothingSkipped test stop n ↔
    (∀ a ∈ reached stop n, NothingSkipped test stop a) ∧ ∀ a ∈ skipped stop n, a.sought test stop = [] := by
  rw [NothingSkipped, unstopped_eq, if_neg (by simp [hstop]), forall_mem_cons,
    ← reached_append_skipped stop n, flatMap_append, forall_mem_append]
  refine ⟨fun ⟨hown, hreached, _⟩ => ⟨fun a ha m hm => ?_, hown⟩, fun ⟨hreached, hown⟩ => ⟨hown, ?_, ?_⟩⟩
  · exact hreached m (mem_flatMap.mpr ⟨a, ha, hm⟩)
  · intro m hm
    obtain ⟨a, ha, hm⟩ := mem_flatMap.mp hm
    exact hreached a ha m hm
  · intro m hm
    obtain ⟨a, ha, hm⟩ := mem_flatMap.mp hm
    exact nothingSkipped_of_sought_eq_nil (hown a ha) m hm

/-- **Searching with a stop.**  What is found is always a part of what is sought, in order.  It is all
    of it exactly if nothing that is sought stands behind a stopped argument: among the arguments that
    follow it, or in the node that is applied to them. -/
theorem findAll_eq_sought_iff (test stop : Node → Bool) (n : Node) :
    (n.findAll test stop).Sublist ((n.unstopped stop).filter test) ∧
      (n.findAll test stop = (n.unstopped stop).filter test ↔ ∀ m ∈ n.unstopped stop,
        ∀ a ∈ skipped stop m, (a.unstopped stop).filter test = []) := by
  refine ⟨sublist_findAll n, ?_⟩
  change n.findAll test stop = n.sought test stop ↔ NothingSkipped test stop n
  induction n using searchedInduction with
  | step n ih =>
    cases hstop : stop n with
    | true =>
      rw [findAll_eq, sought_eq, NothingSkipped, unstopped_eq]
      simp [hstop]
    | false =>
      have hreached : ∀ a ∈ reached stop n, a ∈ n.searched := by
        intro a ha
        rw [← reached_append_skipped stop n]
        exact List.mem_append_left _ ha
      rw [nothingSkipped_iff hstop, findAll_eq, sought_eq, hstop, if_neg Bool.false_ne_true,
        if_neg Bool.false_ne_true, List.append_cancel_left_eq, ← reached_append_skipped stop n,
        List.flatMap_append, ← List.append_nil ((reached stop n).flatMap _),
        append_eq_append_iff (sublist_flatMap fun a _ => sublist_findAll a) (List.nil_sublist _),
        flatMap_eq_flatMap_iff fun a _ => sublist_findAll a]
      refine and_congr (forall₂_congr fun a ha => ih a (hreached a ha)) ?_
      rw [eq_comm, List.flatMap_eq_nil_iff]

/-- The block `class (C: ), return`. -/
def returnBehindClass : Node :=
  ofBlock [ofCall (ident "class") [ident "C", ofBlock []], ident "return"]

/-- A search that stops at definitions does not see the `return` behind a class. -/
theorem findAll_returnBehindClass :
    returnBehindClass.findAll isReturn isDefinition = [] ∧
      ((returnBehindClass.unstopped isDefinition).filter isReturn).length = 1 := by
  decide

/-! ### Labels in order -/

/-- Of two labels, the one that comes first in the order of a search comes before the other. -/
theorem comesBefore_eq (before after : Nat) (n : Node) : n.comesBefore before after =
    (n.inOrder.find? fun x => x.id == before || x.id == after).map (·.id == before) := by
  induction n using searchedInduction with
  | step n ih =>
    have hlist : ∀ ns : List Node, (∀ a ∈ ns, a ∈ n.searched) → comesBeforeList before after ns =
        ((ns.flatMap inOrder).find? fun x => x.id == before || x.id == after).map (·.id == before) := by
      intro ns hns
      induction ns with
      | nil => rfl
      | cons a ns ihns =>
        obtain ⟨ha, hns⟩ := forall_mem_cons.mp hns
        rw [comesBeforeList, ih a ha, ihns hns, flatMap_cons, find?_append]
        cases a.inOrder.find? _ <;> rfl
    have hargs := hlist n.args fun a ha => mem_append_left _ ha
    have hfunc := hlist n.func.toList fun a ha => mem_append_right _ ha
    rw [inOrder_eq, searched, flatMap_append]
    obtain ⟨info, kind, func, args, type⟩ := n
    have hoption : comesBeforeOption before after func = comesBeforeList before after func.toList := by
      cases func <;> simp [comesBeforeOption, comesBeforeList]
    rw [comesBefore, hoption, hargs, hfunc, find?_cons, find?_append]
    show _ = ((match info.id == before || info.id == after with
      | true => some _
      | false => _ : Option Node)).map _
    cases hbefore : info.id == before with
    | true => simp [Node.id, hbefore]
    | false =>
      cases hafter : info.id == after with
      | true => simp [Node.id, hbefore]
      | false =>
        show Option.orElse _ _ = Option.map _ (Option.or _ _)
        cases List.find? _ (args.flatMap inOrder) <;> rfl

def labelOrder (n : Node) : List Nat := n.inOrder.map Node.id

/-- The label that a search meets first has the smaller place. -/
theorem comesBefore_eq_idxOf (a b : Nat) (n : Node) : n.comesBefore a b =
    if a ∈ n.labelOrder ∨ b ∈ n.labelOrder then
      some (decide (n.labelOrder.idxOf a ≤ n.labelOrder.idxOf b))
    else none := by
  rw [comesBefore_eq, labelOrder]
  induction n.inOrder with
  | nil => rfl
  | cons x xs ih =>
    rw [map_cons]
    by_cases ha : x.id = a
    · simp [← ha, idxOf_cons]
    by_cases hb : x.id = b
    · simp [← hb, ha, Ne.symm ha]
    · rw [find?_cons_of_neg (by simp [ha, hb]), ih]
      simp [ha, hb, Ne.symm ha, Ne.symm hb]

/-- **The search is an order.**  There is no answer for labels that are both not in the tree.  The
    answer is yes if the first label is in the tree and has no later place than the second one, so
    that it is also yes for a label and itself, and no if its place is later.  Of two labels of the
    tree, exactly one comes before the other. -/
theorem comesBefore_order (n : Node) (a b : Nat) :
    (n.comesBefore a b = none ↔ a ∉ n.labelOrder ∧ b ∉ n.labelOrder) ∧
    (n.comesBefore a b = some true ↔
      a ∈ n.labelOrder ∧ n.labelOrder.idxOf a ≤ n.labelOrder.idxOf b) ∧
    (n.comesBefore a b = some false ↔ n.labelOrder.idxOf b < n.labelOrder.idxOf a) ∧
    (a ∈ n.labelOrder → b ∈ n.labelOrder → a ≠ b →
      ∃ first, n.comesBefore a b = some first ∧ n.comesBefore b a = some !first) := by
  have hmem (c : Nat) : c ∈ n.labelOrder ↔ n.labelOrder.idxOf c < n.labelOrder.length :=
    idxOf_lt_length_iff.symm
  have ha := idxOf_le_length (a := a) (l := n.labelOrder)
  have hb := idxOf_le_length (a := b) (l := n.labelOrder)
  have hne : a ∈ n.labelOrder → a ≠ b → n.labelOrder.idxOf a ≠ n.labelOrder.idxOf b :=
    fun ha => mt (idxOf_inj ha).mp
  simp only [comesBefore_eq_idxOf, hmem] at hne ⊢
  refine ⟨?_, ?_, ?_, fun ha hb hab => ?_⟩
  · split_ifs
    · simp
      omega
    · simp
      omega
  · split_ifs <;> simp <;> omega
  · split_ifs
    · simp
    · simp
      omega
  · refine ⟨_, if_pos (.inl ha), (if_pos (.inl hb)).trans ?_⟩
    have := hne ha hab
    rw [← decide_not, Option.some.injEq, decide_eq_decide]
    omega

/-- A node comes before itself. -/
theorem comesBefore_self_ident : (ident "x").labelOrder = [0] ∧
    (ident "x").comesBefore 0 0 = some true := ⟨rfl, rfl⟩

end Cppward.Node
