import Cppward.Proofs.Evaluation.Trace
import Cppward.Proofs.Node.Labelling
import Mathlib.Data.List.Flatten

namespace Cppward.Analysis

open Node List

/-!
# Declared types are recorded

A colon gives the expression on its left the specifiers on its right.

* `recordParts`, `declareTypes_of_colon`, `declareTypes_of_ne` — the pass, node by node.
* `expressions` — the expressions that stand directly in an expression, those in specifiers included;
  `colonInduction` is the induction over them.
* `sublist_labels_declareTypes` — in a declarable tree, no label is used twice by the pass.
-/

/-! ### Specifiers -/

section Specifiers

variable {n s : Node}

theorem specifiersList_eq (ns : List Node) : specifiersList ns = ns.flatMap specifiers :=
  eq_flatMap rfl (fun _ _ => rfl) ns

theorem specifiersOption_eq (o : Option Node) : specifiersOption o = o.toList.flatMap specifiers := by
  cases o <;> simp [specifiersOption]

theorem specifiers_of_isTyped (h : n.isTyped = true) : n.specifiers = n.args.flatMap specifiers := by
  obtain ⟨info, kind, func, args, type⟩ := n
  rw [← specifiersList_eq]
  cases kind with
  | binary cls op => cases cls <;> simp_all [isTyped, isClause, binary?, specifiers]
  | _ => simp [isTyped, isClause, binary?] at h

theorem specifiers_of_not (h : n.isTyped = false) :
    n.specifiers = n :: n.type.toList.flatMap specifiers := by
  obtain ⟨info, kind, func, args, type⟩ := n
  rw [← specifiersOption_eq]
  cases kind with
  | binary cls op => cases cls <;> simp_all [isTyped, isClause, binary?, specifiers]
  | _ => simp [specifiers]

theorem mem_specifiers (hs : s ∈ n.specifiers) : s ∈ n.walk ∧ s.isTyped = false := by
  induction n using partsInduction with
  | step n ih =>
    cases htyped : n.isTyped with
    | true =>
      rw [specifiers_of_isTyped htyped] at hs
      obtain ⟨a, ha, hs⟩ := mem_flatMap.mp hs
      obtain ⟨hwalk, hnot⟩ := ih a (arg_mem_parts ha) hs
      exact ⟨mem_walk_of_mem_parts (arg_mem_parts ha) hwalk, hnot⟩
    | false =>
      rw [specifiers_of_not htyped, mem_cons] at hs
      rcases hs with rfl | hs
      · exact ⟨s.self_mem_walk, htyped⟩
      · obtain ⟨t, ht, hs⟩ := mem_flatMap.mp hs
        have ht' := type_mem_parts (Option.mem_toList.mp ht)
        obtain ⟨hwalk, hnot⟩ := ih t ht' hs
        exact ⟨mem_walk_of_mem_parts ht' hwalk, hnot⟩

theorem evaluated_anonymous (n : Node) : n.anonymous.evaluated = n.evaluated.map anonymous := by
  simp only [evaluated, func_anonymous, args_anonymous, map_append, Option.toList_map]

theorem isTyped_anonymous (n : Node) : n.anonymous.isTyped = n.isTyped := by
  simp only [isTyped, isClause, binary?_anonymous]

theorem specifiers_anonymous (n : Node) : n.anonymous.specifiers = n.specifiers.map anonymous := by
  induction n using partsInduction with
  | step n ih =>
    cases htyped : n.isTyped with
    | true =>
      rw [specifiers_of_isTyped htyped, specifiers_of_isTyped (by rwa [isTyped_anonymous]),
        args_anonymous, flatMap_map, map_flatMap]
      exact flatMap_congr fun a ha => ih a (arg_mem_parts ha)
    | false =>
      rw [specifiers_of_not htyped, specifiers_of_not (by rwa [isTyped_anonymous]), type_anonymous,
        map_cons, Option.toList_map, flatMap_map, map_flatMap]
      refine congrArg _ (flatMap_congr fun t ht => ih t (type_mem_parts ?_))
      exact Option.mem_toList.mp ht

/-- What is collected from specifiers is collected from their join, if colons add nothing to it. -/
theorem flatMap_ofSpecifiers? {α : Type} {f : Node → List α}
    (hjoin : ∀ (x y : Node) (info : Info),
      f { ofBinary .typed ":" x y with info := { info with id := 0 } } = f x ++ f y) (ns : List Node) :
    (ofSpecifiers? ns).toList.flatMap f = ns.flatMap f := by
  have hfold : ∀ (rest : List Node) (acc : Node), f (rest.foldl (fun acc c =>
      { ofBinary .typed ":" acc c with info := { c.info with id := 0 } }) acc) =
        f acc ++ rest.flatMap f := by
    intro rest
    induction rest with
    | nil => simp
    | cons c rest ih =>
      intro acc
      rw [foldl_cons, ih, hjoin, flatMap_cons, append_assoc]
  match ns with
  | [] => rfl
  | [n] => simp [ofSpecifiers?, joinLeft]
  | a :: b :: rest =>
    rw [ofSpecifiers?, joinLeft, Option.toList_some, flatMap_singleton]
    refine (hfold rest _).trans ?_
    rw [hjoin, flatMap_cons, flatMap_cons, append_assoc]

theorem forall_mem_ofSpecifiers? {α : Type} {f : Node → List α} {P : α → Prop} {ns : List Node}
    (hjoin : (ofSpecifiers? ns).toList.flatMap f = ns.flatMap f) (h : ∀ s ∈ ns, ∀ x ∈ f s, P x) :
    ∀ t ∈ ofSpecifiers? ns, ∀ x ∈ f t, P x := by
  intro t ht x hx
  have hmem : x ∈ (ofSpecifiers? ns).toList.flatMap f :=
    mem_flatMap.mpr ⟨t, Option.mem_toList.mpr ht, hx⟩
  rw [hjoin] at hmem
  obtain ⟨s, hs, hx⟩ := mem_flatMap.mp hmem
  exact h s hs x hx

theorem labels_ofSpecifiers? (ns : List Node) :
    (ofSpecifiers? ns).toList.flatMap labels = ns.flatMap labels := by
  refine flatMap_ofSpecifiers? (fun x y info => ?_) ns
  rw [labels_eq]
  simp [ownLabel, Node.id, parts, ofBinary, make]

end Specifiers

/-! ### Single nodes -/

section

variable {n lhs : Node} {types : List Node}

theorem declareList_eq (ns : List Node) : declareList ns = ns.map declareTypes :=
  eq_map rfl (fun _ _ => rfl) ns

theorem declareSpecifiersList_eq (ns : List Node) :
    declareSpecifiersList ns = ns.flatMap declareSpecifiers :=
  eq_flatMap rfl (fun _ _ => rfl) ns

theorem declareOption_eq (o : Option Node) : declareOption o = o.map declareTypes := by
  cases o <;> rfl

/-- The node with the types in its parts recorded. -/
def recordParts (n : Node) : Node :=
  { n with func := n.func.map declareTypes, args := n.args.map declareTypes }

theorem evaluated_recordParts (n : Node) : (recordParts n).evaluated = n.evaluated.map declareTypes := by
  simp [recordParts, evaluated, Option.toList_map]

theorem declareSpecifiers_eq (n : Node) : declareSpecifiers n = n.specifiers.map recordParts := by
  induction n using partsInduction with
  | step n ih =>
    obtain ⟨info, kind, func, args, type⟩ := n
    have hargs : declareSpecifiersList args = (specifiersList args).map recordParts := by
      rw [declareSpecifiersList_eq, specifiersList_eq, map_flatMap]
      exact flatMap_congr fun a ha => ih a (arg_mem_parts ha)
    have htype : declareSpecifiersOption type = (specifiersOption type).map recordParts := by
      cases type with
      | none => rfl
      | some t => exact ih t (type_mem_parts rfl)
    have hnode := (declareOption_eq func).symm
    have hlist := (declareList_eq args).symm
    cases kind with
    | binary cls op =>
      cases cls <;> simp [declareSpecifiers, specifiers, recordParts, hargs, htype, hnode, hlist]
    | _ => simp [declareSpecifiers, specifiers, recordParts, htype, hnode, hlist]

theorem declareTypes_of_colon (h : n.binary? = some .typed) (hargs : n.args = lhs :: types) :
    declareTypes n =
      { recordParts lhs with type := ofSpecifiers? ((types.flatMap specifiers).map recordParts) } := by
  obtain ⟨info, kind, func, args, type⟩ := n
  obtain ⟨op, rfl⟩ : ∃ op, kind = .binary .typed op := by
    cases kind <;> simp_all [binary?]
  obtain ⟨info', kind', func', args', type'⟩ := lhs
  cases hargs
  rw [declareTypes, declareOperands, declareOption_eq, declareList_eq, declareSpecifiersList_eq,
    map_flatMap]
  simp only [recordParts, ← declareSpecifiers_eq]

theorem declareTypes_of_bare (h : n.binary? = some .typed) (hargs : n.args = []) :
    declareTypes n = n := by
  obtain ⟨info, kind, func, args, type⟩ := n
  obtain ⟨op, rfl⟩ : ∃ op, kind = .binary .typed op := by
    cases kind <;> simp_all [binary?]
  cases hargs
  rfl

theorem declareTypes_of_ne (h : n.binary? ≠ some .typed) : declareTypes n = recordParts n := by
  obtain ⟨info, kind, func, args, type⟩ := n
  have hkind : ∀ op, kind ≠ .binary .typed op := by
    rintro op rfl
    exact h rfl
  rw [declareTypes, declareOption_eq, declareList_eq]
  · rfl
  · exact hkind

end

/-! ### Places of expressions -/

/-- The expressions that stand directly in an expression.  For a colon these are the parts of the left
    operand and of the specifiers on the right: what only joins specifiers is no expression. -/
def expressions (n : Node) : List Node :=
  if n.binary? = some .typed then
    match n.args with
    | [] => []
    | lhs :: types => lhs.evaluated ++ (types.flatMap specifiers).flatMap evaluated
  else n.evaluated

section Expressions

variable {n a : Node} {lhs : Node} {types : List Node}

theorem expressions_of_ne (h : n.binary? ≠ some .typed) : expressions n = n.evaluated := if_neg h

theorem expressions_of_colon (h : n.binary? = some .typed) (hargs : n.args = lhs :: types) :
    expressions n = lhs.evaluated ++ (types.flatMap specifiers).flatMap evaluated := by
  rw [expressions, if_pos h, hargs]

theorem exists_part_of_mem_expressions (h : a ∈ expressions n) : ∃ b ∈ n.parts, a ∈ b.walk := by
  have hinside : ∀ {m b : Node}, b ∈ n.args → m ∈ b.walk → a ∈ m.evaluated → ∃ b ∈ n.parts, a ∈ b.walk := by
    intro m b hb hm ha
    exact ⟨b, arg_mem_parts hb, mem_walk_trans hm
      (mem_walk_of_mem_parts (mem_parts_of_mem_evaluated ha) a.self_mem_walk)⟩
  by_cases hcolon : n.binary? = some .typed
  · cases hargs : n.args with
    | nil => simp [expressions, hcolon, hargs] at h
    | cons lhs types =>
      rw [expressions_of_colon hcolon hargs, mem_append] at h
      rcases h with h | h
      · exact hinside (by simp [hargs]) lhs.self_mem_walk h
      · obtain ⟨s, hs, ha⟩ := mem_flatMap.mp h
        obtain ⟨b, hb, hs⟩ := mem_flatMap.mp hs
        exact hinside (by simp [hargs, hb]) (mem_specifiers hs).1 ha
  · rw [expressions_of_ne hcolon] at h
    exact ⟨a, mem_parts_of_mem_evaluated h, a.self_mem_walk⟩

theorem expressionsInduction {motive : Node → Prop}
    (step : ∀ n : Node, (∀ a ∈ expressions n, motive a) → motive n) (n : Node) : motive n := by
  induction h : n.size using Nat.strong_induction_on generalizing n with
  | h size ih =>
    subst h
    refine step n fun a ha => ih a.size ?_ a rfl
    obtain ⟨b, hb, ha⟩ := exists_part_of_mem_expressions ha
    exact (size_le_of_mem_walk ha).trans_lt (size_lt_of_mem_parts hb)

theorem colonInduction {motive : Node → Prop}
    (plain : ∀ n, n.binary? ≠ some .typed → (∀ a ∈ n.evaluated, motive a) → motive n)
    (bare : ∀ n, n.binary? = some .typed → n.args = [] → motive n)
    (colon : ∀ n lhs types, n.binary? = some .typed → n.args = lhs :: types →
      (∀ a ∈ lhs.evaluated, motive a) →
        (∀ s ∈ types.flatMap specifiers, ∀ a ∈ s.evaluated, motive a) → motive n) (n : Node) :
    motive n := by
  induction n using expressionsInduction with
  | step n ih =>
    by_cases hcolon : n.binary? = some .typed
    · cases hargs : n.args with
      | nil => exact bare n hcolon hargs
      | cons lhs types =>
        rw [expressions_of_colon hcolon hargs] at ih
        exact colon n lhs types hcolon hargs (fun a ha => ih a (mem_append_left _ ha)) fun s hs a ha =>
          ih a (mem_append_right _ (mem_flatMap.mpr ⟨s, hs, ha⟩))
    · rw [expressions_of_ne hcolon] at ih
      exact plain n hcolon ih

end Expressions

/-! ### Labels -/

/-- No node of the tree has a declared type. -/
def Untyped (n : Node) : Prop := ∀ m ∈ n.walk, m.type = none

section Untyped

variable {n a s : Node}

theorem Untyped.part (h : Untyped n) (ha : a ∈ n.parts) : Untyped a :=
  fun m hm => h m (mem_walk_of_mem_parts ha hm)

theorem Untyped.specifier (h : Untyped n) (hs : s ∈ n.specifiers) : Untyped s :=
  fun m hm => h m (mem_walk_trans (mem_specifiers hs).1 hm)

/-- The specifiers of a type without declared types are different parts of it. -/
theorem Untyped.sublist_labels_specifiers (h : Untyped n) :
    (n.specifiers.flatMap labels).Sublist n.labels := by
  induction n using partsInduction with
  | step n ih =>
    cases htyped : n.isTyped with
    | true =>
      rw [specifiers_of_isTyped htyped, flatMap_assoc, labels_eq n, parts, flatMap_append,
        flatMap_append]
      have hargs : (n.args.flatMap fun a => a.specifiers.flatMap labels).Sublist
          (n.args.flatMap labels) :=
        List.Sublist.flatMap_right _ fun a ha => ih a (arg_mem_parts ha) (h.part (arg_mem_parts ha))
      exact (hargs.trans ((sublist_append_right _ _).trans (sublist_append_left _ _))).trans
        (sublist_append_right _ _)
    | false =>
      rw [specifiers_of_not htyped, h n n.self_mem_walk]
      simp

/-- The right operands of the colons in a tree have no declared types. -/
@[mk_iff]
inductive Declarable : Node → Prop
  | make {n : Node} (hcolon : n.binary? = some .typed → ∀ a ∈ n.args.tail, Untyped a)
      (hparts : ∀ a ∈ n.evaluated, Declarable a) : Declarable n

theorem Untyped.declarable (h : Untyped n) : Declarable n := by
  induction n using evaluatedInduction with
  | step n ih =>
    refine .make (fun _ a ha => ?_) fun a ha => ih a ha (h.part (mem_parts_of_mem_evaluated ha))
    exact h.part (arg_mem_parts (mem_of_mem_tail ha))

theorem Declarable.part (h : Declarable n) (ha : a ∈ n.evaluated) : Declarable a :=
  ((declarable_iff n).mp h).2 a ha

theorem labels_eq_evaluated (n : Node) : n.labels =
    n.ownLabel ++ (n.evaluated.flatMap labels ++ n.type.toList.flatMap labels) := by
  rw [labels_eq, ← flatMap_append]
  rfl

theorem sublist_labels_recordParts
    (h : ∀ a ∈ n.evaluated, (declareTypes a).labels.Sublist a.labels) :
    (recordParts n).labels.Sublist n.labels := by
  have hevaluated : ((recordParts n).evaluated.flatMap labels).Sublist (n.evaluated.flatMap labels) := by
    rw [evaluated_recordParts, flatMap_map]
    exact List.Sublist.flatMap_right _ h
  rw [labels_eq_evaluated, labels_eq_evaluated n]
  exact (List.Sublist.refl _).append (hevaluated.append (List.Sublist.refl _))

/-- **Recording types uses no label twice.** -/
theorem sublist_labels_declareTypes (h : Declarable n) : (declareTypes n).labels.Sublist n.labels := by
  induction n using colonInduction with
  | plain n hcolon ih =>
    rw [declareTypes_of_ne hcolon]
    exact sublist_labels_recordParts fun a ha => ih a ha (h.part ha)
  | bare n hcolon hargs => rw [declareTypes_of_bare hcolon hargs]
  | colon n lhs types hcolon hargs ihlhs ihtypes =>
    -- the colon itself, what it gives no type to and an earlier type of the left operand go
    have hlhs : Declarable lhs := h.part (mem_append_right _ (by simp [hargs]))
    have huntyped : ∀ a ∈ types, Untyped a :=
      fun a ha => ((declarable_iff n).mp h).1 hcolon a (by simp [hargs, ha])
    have hleft := sublist_labels_recordParts fun a ha => ihlhs a ha (hlhs.part ha)
    have hright : (((types.flatMap specifiers).map recordParts).flatMap labels).Sublist
        (types.flatMap labels) := by
      rw [flatMap_map]
      refine .trans (List.Sublist.flatMap_right _ fun s hs => sublist_labels_recordParts fun a ha =>
        ihtypes s hs a ha ?_) ?_
      · obtain ⟨b, hb, hs⟩ := mem_flatMap.mp hs
        exact (((huntyped b hb).specifier hs).part (mem_parts_of_mem_evaluated ha)).declarable
      · rw [flatMap_assoc]
        exact List.Sublist.flatMap_right _ fun a ha => (huntyped a ha).sublist_labels_specifiers
    have hkept : ((recordParts lhs).ownLabel ++ (recordParts lhs).evaluated.flatMap labels).Sublist
        (recordParts lhs).labels := by
      rw [labels_eq_evaluated]
      exact (List.Sublist.refl _).append (sublist_append_left _ _)
    rw [declareTypes_of_colon hcolon hargs, labels_eq_evaluated, labels_ofSpecifiers?, ← append_assoc]
    refine ((hkept.trans hleft).append hright).trans ?_
    rw [labels_eq n, parts, flatMap_append, flatMap_append, hargs, flatMap_cons]
    exact ((sublist_append_right _ _).trans (sublist_append_left _ _)).trans (sublist_append_right _ _)

end Untyped

/-! ### Trees without labels -/

/-- Specifiers are joined without regard to labels. -/
theorem ofSpecifiers?_map_anonymous (ns : List Node) :
    ofSpecifiers? (ns.map anonymous) = (ofSpecifiers? ns).map anonymous := by
  have hjoin : ∀ x y c : Node,
      ({ ofBinary .typed ":" x.anonymous y.anonymous with
          info := { c.anonymous.info with id := 0 } } : Node) =
        anonymous { ofBinary .typed ":" x y with info := { c.info with id := 0 } } := by
    intro x y c
    simp [anonymous_eq, ofBinary, make]
  have hfold : ∀ (rest : List Node) (acc : Node), (rest.map anonymous).foldl (fun acc c =>
      { ofBinary .typed ":" acc c with info := { c.info with id := 0 } }) acc.anonymous =
        anonymous (rest.foldl (fun acc c =>
          { ofBinary .typed ":" acc c with info := { c.info with id := 0 } }) acc) := by
    intro rest
    induction rest with
    | nil => exact fun _ => rfl
    | cons c rest ih =>
      intro acc
      rw [map_cons, foldl_cons, foldl_cons, hjoin, ih]
  rcases ns with _ | ⟨a, _ | ⟨b, rest⟩⟩
  · rfl
  · rfl
  · rw [ofSpecifiers?, ofSpecifiers?, joinLeft, map_cons, map_cons, joinLeft,
      Option.map_some]
    refine congrArg some (Eq.trans ?_ (hfold rest _))
    exact congrArg (fun acc => List.foldl _ acc (rest.map anonymous)) (hjoin a b a)

theorem recordParts_anonymous {n : Node}
    (h : ∀ a ∈ n.evaluated, declareTypes a.anonymous = (declareTypes a).anonymous) :
    recordParts n.anonymous = (recordParts n).anonymous := by
  have hfunc : (n.func.map anonymous).map declareTypes = (n.func.map declareTypes).map anonymous := by
    rw [Option.map_map, Option.map_map]
    exact Option.map_congr fun f hf => h f (mem_append_left _ (Option.mem_toList.mpr hf))
  have hargs : (n.args.map anonymous).map declareTypes = (n.args.map declareTypes).map anonymous := by
    rw [map_map, map_map]
    exact map_congr_left fun a ha => h a (mem_append_right _ ha)
  simp [recordParts, anonymous_eq, hfunc, hargs]

theorem declareTypes_anonymous (n : Node) :
    declareTypes n.anonymous = (declareTypes n).anonymous := by
  induction n using colonInduction with
  | plain n hcolon ih =>
    rw [declareTypes_of_ne hcolon, declareTypes_of_ne (by rwa [binary?_anonymous]),
      recordParts_anonymous ih]
  | bare n hcolon hargs =>
    rw [declareTypes_of_bare hcolon hargs,
      declareTypes_of_bare (by rwa [binary?_anonymous]) (by rw [args_anonymous, hargs, map_nil])]
  | colon n lhs types hcolon hargs ihlhs ihtypes =>
    have htypes : (((types.map anonymous).flatMap specifiers).map recordParts) =
        ((types.flatMap specifiers).map recordParts).map anonymous := by
      simp only [flatMap_map, specifiers_anonymous, ← map_flatMap, map_map]
      exact map_congr_left fun s hs => recordParts_anonymous (ihtypes s hs)
    rw [declareTypes_of_colon hcolon hargs, declareTypes_of_colon (by rwa [binary?_anonymous])
      (by rw [args_anonymous, hargs, map_cons]), recordParts_anonymous ihlhs, htypes,
      ofSpecifiers?_map_anonymous]
    simp [anonymous_eq]

end Cppward.Analysis
