import Cppward.Proofs.Analysis.Securing

namespace Cppward.Analysis

open Node List

/-!
# Specifiers of declared types

A colon gives the expression on its left the specifiers on its right.  In a tree where no colon has
another one on its left, recording types once removes all colons but those that join the specifiers of
declared types, and every declared type lists the specifiers of its colon in order.

* `GivesType` — a colon that gives an expression a type, somewhere in a tree.
* `Ready` — trees whose colons have no colon on their left.
* `resolved_declareTypes`, `given_declareTypes`, `kept_declareTypes` — what recording types does with them.
-/

/-! ### Specifiers -/

section Specifiers

variable {n : Node}

theorem specifiers_ofSpecifiers? (ns : List Node) :
    (ofSpecifiers? ns).toList.flatMap specifiers = ns.flatMap specifiers := by
  refine flatMap_ofSpecifiers? (fun x y info => ?_) ns
  rw [specifiers_of_isTyped rfl]
  simp [ofBinary, make]

theorem isTyped_of_binary? (h : n.binary? = some .typed) : n.isTyped = true := by
  simp [isTyped, h]

theorem binary?_ne_of_isTyped (h : n.isTyped = false) : n.binary? ≠ some .typed :=
  fun hcolon => by simp [isTyped_of_binary? hcolon] at h

end Specifiers

/-! ### Colons that give types -/

/-- The colon `c` gives a type to some expression in `n`. -/
inductive GivesType (c : Node) : Node → Prop
  | self (h : c.binary? = some .typed) : GivesType c c
  | inside {n a : Node} (ha : a ∈ expressions n) (h : GivesType c a) : GivesType c n

/-- If the node is a colon, it stands between an expression that is no colon and specifiers. -/
def IsPlainColon (c : Node) : Prop :=
  c.binary? = some .typed → ∃ lhs types, c.args = lhs :: types ∧ lhs.binary? ≠ some .typed ∧
    types.flatMap specifiers ≠ []

instance : DecidablePred IsPlainColon := fun c =>
  decidable_of_iff (c.binary? = some .typed → c.args ≠ [] ∧
      (∀ lhs ∈ c.args.head?, lhs.binary? ≠ some .typed) ∧ c.args.tail.flatMap specifiers ≠ []) (by
    rw [IsPlainColon]
    cases c.args <;> simp)

/-! ### Resolved trees -/

/-- The nodes of a tree other than colons. -/
def plainNodes (n : Node) : List Node := n.walk.filter (·.binary? != some .typed)

/-- Colons stand only where they join the specifiers of a declared type. -/
def Resolved (n : Node) : Prop := ∀ m ∈ plainNodes n, ∀ a ∈ m.evaluated, a.binary? ≠ some .typed

section Resolved

variable {n m : Node}

theorem mem_plainNodes : m ∈ plainNodes n ↔ m ∈ n.walk ∧ m.binary? ≠ some .typed := by
  simp [plainNodes]

theorem plainNodes_eq (n : Node) : plainNodes n =
    (if n.binary? = some .typed then [] else [n]) ++ n.parts.flatMap plainNodes := by
  rw [plainNodes, walk_eq, filter_cons, filter_flatMap]
  by_cases h : n.binary? = some .typed <;> simp [h] <;> rfl

theorem plainNodes_ofSpecifiers? (ns : List Node) :
    (ofSpecifiers? ns).toList.flatMap plainNodes = ns.flatMap plainNodes := by
  refine flatMap_ofSpecifiers? (fun x y info => ?_) ns
  rw [plainNodes_eq]
  simp [parts, ofBinary, make, binary?]

theorem plainNodes_subset_of_mem_parts {a : Node} (h : a ∈ n.parts) : plainNodes a ⊆ plainNodes n := by
  intro m hm
  rw [mem_plainNodes] at hm ⊢
  exact ⟨mem_walk_of_mem_parts h hm.1, hm.2⟩

theorem resolved_iff : Resolved n ↔
    (n.binary? ≠ some .typed → ∀ a ∈ n.evaluated, a.binary? ≠ some .typed) ∧
      ∀ a ∈ n.parts, Resolved a := by
  unfold Resolved
  rw [plainNodes_eq]
  by_cases h : n.binary? = some .typed
  · simp [h, mem_flatMap]
    exact ⟨fun hall a ha m hm => hall m a ha hm, fun hall m a ha hm => hall a ha m hm⟩
  · simp only [h, if_false, singleton_append, forall_mem_cons, ne_eq, not_false_eq_true,
      true_imp_iff, mem_flatMap]
    exact and_congr_right fun _ =>
      ⟨fun hall a ha m hm => hall m ⟨a, ha, hm⟩, fun hall m ⟨a, ha, hm⟩ => hall a ha m hm⟩

theorem resolved_ofSpecifiers? {ns : List Node} (h : ∀ s ∈ ns, Resolved s) :
    ∀ t ∈ ofSpecifiers? ns, Resolved t :=
  forall_mem_ofSpecifiers? (plainNodes_ofSpecifiers? ns) h

end Resolved

/-! ### Trees whose types can be recorded -/

/-- Every colon that gives a type has no colon on its left; what is on either side of it has no declared
    types yet, and declared types elsewhere are resolved. -/
@[mk_iff]
inductive Ready : Node → Prop
  | plain {n : Node} (hcolon : n.binary? ≠ some .typed) (htype : ∀ t ∈ n.type, Resolved t)
      (hinside : ∀ a ∈ expressions n, Ready a) : Ready n
  | colon {n lhs : Node} {types : List Node} (hcolon : n.binary? = some .typed)
      (hargs : n.args = lhs :: types) (hlhs : lhs.binary? ≠ some .typed)
      (hspecifiers : types.flatMap specifiers ≠ []) (htype : n.type = none) (hlhsType : lhs.type = none)
      (hfunc : ∀ f ∈ n.func, Untyped f) (htypes : ∀ a ∈ types, Untyped a)
      (hinside : ∀ a ∈ expressions n, Ready a) : Ready n

section Ready

variable {n : Node}

theorem Ready.inside (h : Ready n) : ∀ a ∈ expressions n, Ready a := by
  cases h with
  | plain _ _ hinside => exact hinside
  | colon _ _ _ _ _ _ _ _ hinside => exact hinside

/-- A tree without declared types is ready, if no colon that gives a type has a colon on its left. -/
theorem Untyped.ready (h : Untyped n) (hplain : ∀ c, GivesType c n → IsPlainColon c) : Ready n := by
  induction n using expressionsInduction with
  | step n ih =>
    have hinside : (∀ a ∈ expressions n, Untyped a) → ∀ a ∈ expressions n, Ready a :=
      fun huntyped a ha => ih a ha (huntyped a ha) fun c hc => hplain c (.inside ha hc)
    by_cases hcolon : n.binary? = some .typed
    · obtain ⟨lhs, types, hargs, hlhs, hspecifiers⟩ := hplain n (.self hcolon) hcolon
      have hpart : ∀ a ∈ n.args, Untyped a := fun a ha => h.part (arg_mem_parts ha)
      rw [hargs, forall_mem_cons] at hpart
      refine .colon hcolon hargs hlhs hspecifiers (h n n.self_mem_walk) (hpart.1 lhs lhs.self_mem_walk)
        (fun f hf => h.part (func_mem_parts hf)) hpart.2 (hinside fun a ha => ?_)
      rw [expressions_of_colon hcolon hargs, mem_append] at ha
      rcases ha with ha | ha
      · exact hpart.1.part (mem_parts_of_mem_evaluated ha)
      · obtain ⟨s, hs, ha⟩ := mem_flatMap.mp ha
        obtain ⟨b, hb, hs⟩ := mem_flatMap.mp hs
        exact fun m hm => hpart.2 b hb m (mem_walk_trans (mem_specifiers hs).1
          (mem_walk_of_mem_parts (mem_parts_of_mem_evaluated ha) hm))
    · refine .plain hcolon (fun t ht => ?_) (hinside fun a ha => ?_)
      · rw [h n n.self_mem_walk] at ht
        cases ht
      · rw [expressions_of_ne hcolon] at ha
        exact h.part (mem_parts_of_mem_evaluated ha)

theorem GivesType.exists_args {c : Node} (hc : GivesType c n) (h : Ready n) :
    ∃ lhs types, c.args = lhs :: types := by
  induction hc with
  | self hcolon =>
    cases h with
    | plain hplain => exact absurd hcolon hplain
    | colon _ hargs => exact ⟨_, _, hargs⟩
  | inside ha _ ih => exact ih (h.inside _ ha)

theorem Ready.declarable (h : Ready n) : Declarable n := by
  induction n using expressionsInduction with
  | step n ih =>
    have hinside : ∀ a ∈ expressions n, Declarable a := fun a ha => ih a ha (h.inside a ha)
    cases h with
    | plain hcolon =>
      rw [expressions_of_ne hcolon] at hinside
      exact .make (fun h => absurd h hcolon) hinside
    | @colon _ lhs types hcolon hargs hlhs _ _ _ hfunc htypes =>
      rw [expressions_of_colon hcolon hargs] at hinside
      refine .make (fun _ a ha => htypes a (by simpa [hargs] using ha)) fun a ha => ?_
      rcases mem_append.mp ha with ha | ha
      · exact (hfunc a (Option.mem_toList.mp ha)).declarable
      rw [hargs, mem_cons] at ha
      rcases ha with rfl | ha
      · exact .make (fun h => absurd h hlhs) fun b hb => hinside b (mem_append_left _ hb)
      · exact (htypes a ha).declarable

end Ready

/-! ### Recording types -/

section Recording

variable {n c : Node}

/-- The specifiers on the right of a colon have no declared types. -/
theorem type_of_mem_specifiers {types : List Node} (htypes : ∀ a ∈ types, Untyped a) {s : Node}
    (hs : s ∈ types.flatMap specifiers) : s.type = none := by
  obtain ⟨a, ha, hs⟩ := mem_flatMap.mp hs
  exact htypes a ha s (mem_specifiers hs).1

/-- The nodes of what stands in an expression are found where types are recorded. -/
theorem plainNodes_declareTypes_subset (h : Ready n) {a : Node} (ha : a ∈ expressions n) :
    plainNodes (declareTypes a) ⊆ plainNodes (declareTypes n) := by
  have hrecorded : ∀ {m : Node}, a ∈ m.evaluated → plainNodes (declareTypes a) ⊆ plainNodes (recordParts m) := by
    intro m ha
    refine plainNodes_subset_of_mem_parts (mem_parts_of_mem_evaluated ?_)
    rw [evaluated_recordParts]
    exact mem_map_of_mem ha
  cases h with
  | plain hcolon =>
    rw [expressions_of_ne hcolon] at ha
    rw [declareTypes_of_ne hcolon]
    exact hrecorded ha
  | @colon _ lhs types hcolon hargs hlhs _ _ _ _ htypes =>
    rw [expressions_of_colon hcolon hargs, mem_append] at ha
    rw [declareTypes_of_colon hcolon hargs]
    rcases ha with ha | ha
    · refine plainNodes_subset_of_mem_parts (mem_parts_of_mem_evaluated ?_)
      show declareTypes a ∈ (recordParts lhs).evaluated
      rw [evaluated_recordParts]
      exact mem_map_of_mem ha
    · obtain ⟨s, hs, ha⟩ := mem_flatMap.mp ha
      intro m hm
      have hjoined : m ∈ (ofSpecifiers? ((types.flatMap specifiers).map recordParts)).toList.flatMap
          plainNodes := by
        rw [plainNodes_ofSpecifiers?]
        exact mem_flatMap.mpr ⟨_, mem_map_of_mem hs, hrecorded ha hm⟩
      obtain ⟨t, ht, hm⟩ := mem_flatMap.mp hjoined
      exact plainNodes_subset_of_mem_parts (type_mem_parts (Option.mem_toList.mp ht)) hm

/-- **Recording types resolves a tree** in which no colon that gives a type has a colon on its left. -/
theorem resolved_declareTypes (h : Ready n) :
    Resolved (declareTypes n) ∧ (declareTypes n).binary? ≠ some .typed := by
  induction n using expressionsInduction with
  | step n ih =>
    have hinside : ∀ a ∈ expressions n, Resolved (declareTypes a) ∧ (declareTypes a).binary? ≠ some .typed :=
      fun a ha => ih a ha (h.inside a ha)
    -- a node whose parts are recorded, with some declared type
    have hnode : ∀ {m : Node} (type : Option Node), m.binary? ≠ some .typed →
        (∀ a ∈ m.evaluated, a ∈ expressions n) → (∀ t ∈ type, Resolved t) →
          Resolved { recordParts m with type } := by
      intro m type hm hsub htype
      rw [resolved_iff]
      have hevaluated : ∀ b ∈ (recordParts m).evaluated, Resolved b ∧ b.binary? ≠ some .typed := by
        rw [evaluated_recordParts, forall_mem_map]
        exact fun a ha => hinside a (hsub a ha)
      refine ⟨fun _ b hb => (hevaluated b hb).2, fun b hb => ?_⟩
      rcases mem_append.mp hb with hb | hb
      · exact (hevaluated b hb).1
      · exact htype b (Option.mem_toList.mp hb)
    cases h with
    | plain hcolon htype =>
      rw [declareTypes_of_ne hcolon]
      rw [expressions_of_ne hcolon] at hnode
      exact ⟨hnode n.type hcolon (fun _ ha => ha) htype, hcolon⟩
    | @colon _ lhs types hcolon hargs hlhs _ _ _ _ htypes =>
      rw [expressions_of_colon hcolon hargs] at hnode
      rw [declareTypes_of_colon hcolon hargs]
      refine ⟨hnode _ hlhs (fun a ha => mem_append_left _ ha) (resolved_ofSpecifiers? ?_), hlhs⟩
      rw [forall_mem_map]
      intro s hs
      obtain ⟨b, hb, hs'⟩ := mem_flatMap.mp hs
      refine hnode (m := s) s.type (binary?_ne_of_isTyped (mem_specifiers hs').2) ?_ ?_
      · exact fun a ha => mem_append_right _ (mem_flatMap.mpr ⟨s, hs, ha⟩)
      · rw [type_of_mem_specifiers htypes hs]
        exact fun t ht => by cases ht

/-- What tells a node from others: its label, and its kind. -/
def identity (n : Node) : Nat × Kind := (n.id, n.kind)

/-- The node `x` is what the colon `c` gave a type: it is the left operand, and its declared type lists
    the specifiers of the colon in order. -/
def IsGiven (c x : Node) : Prop :=
  ∀ lhs types, c.args = lhs :: types → identity x = identity lhs ∧
    (x.type.toList.flatMap specifiers).map identity = (types.flatMap specifiers).map identity

/-- **Every colon that gives a type is recorded**, with all its specifiers. -/
theorem given_declareTypes (hc : GivesType c n) (h : Ready n) :
    ∃ x ∈ plainNodes (declareTypes n), x.type.isSome ∧ IsGiven c x := by
  induction hc with
  | self hcolon =>
    have hresolved := resolved_declareTypes h
    refine ⟨declareTypes c, mem_plainNodes.mpr ⟨self_mem_walk _, hresolved.2⟩, ?_⟩
    cases h with
    | plain hplain => exact absurd hcolon hplain
    | @colon _ lhs types _ hargs _ hspecifiers _ _ _ htypes =>
      rw [declareTypes_of_colon hcolon hargs]
      have hflat : (((types.flatMap specifiers).map recordParts).flatMap specifiers).map identity =
          (types.flatMap specifiers).map identity := by
        rw [flatMap_map, map_flatMap]
        have hone : ∀ s ∈ types.flatMap specifiers,
            (specifiers (recordParts s)).map identity = [identity s] := by
          intro s hs
          obtain ⟨b, _, hs'⟩ := mem_flatMap.mp hs
          have htype : (recordParts s).type = none := type_of_mem_specifiers (s := s) htypes hs
          rw [specifiers_of_not (n := recordParts s) (mem_specifiers hs').2, htype]
          rfl
        rw [flatMap_congr hone, ← map_eq_flatMap]
      refine ⟨?_, fun lhs' types' hargs' => ?_⟩
      · cases hjoined : ofSpecifiers? ((types.flatMap specifiers).map recordParts) with
        | some t => rfl
        | none =>
          have hempty := specifiers_ofSpecifiers? ((types.flatMap specifiers).map recordParts)
          rw [hjoined] at hempty
          rw [← hempty] at hflat
          exact absurd (map_eq_nil_iff.mp hflat.symm) hspecifiers
      · rw [hargs, List.cons.injEq] at hargs'
        obtain ⟨rfl, rfl⟩ := hargs'
        refine ⟨rfl, ?_⟩
        show ((ofSpecifiers? _).toList.flatMap specifiers).map identity = _
        rw [specifiers_ofSpecifiers?, hflat]
  | inside ha _ ih =>
    obtain ⟨x, hx, hgiven⟩ := ih (h.inside _ ha)
    exact ⟨x, plainNodes_declareTypes_subset h ha hx, hgiven⟩

/-- Declaring types keeps the types that are there. -/
theorem kept_declareTypes (h : Ready n) {y : Node} (hy : EvaluatedIn y n) (htype : y.type.isSome) :
    ∃ y', EvaluatedIn y' (declareTypes n) ∧ identity y' = identity y ∧ y'.type = y.type := by
  induction n using expressionsInduction with
  | step n ih =>
    have hparts : ∀ {m a : Node} {type : Option Node}, a ∈ m.evaluated → a ∈ expressions n →
        EvaluatedIn y a → ∃ y', EvaluatedIn y' { recordParts m with type } ∧ identity y' = identity y ∧
          y'.type = y.type := by
      intro m a type ha hinside hy
      obtain ⟨y', hy', hsame⟩ := ih a hinside (h.inside a hinside) hy
      refine ⟨y', .part ?_ hy', hsame⟩
      show declareTypes a ∈ (recordParts m).evaluated
      rw [evaluated_recordParts]
      exact mem_map_of_mem ha
    cases h with
    | plain hcolon =>
      rw [declareTypes_of_ne hcolon]
      rw [expressions_of_ne hcolon] at hparts
      rcases evaluatedIn_iff.mp hy with rfl | ⟨a, ha, hy⟩
      · exact ⟨_, .self, rfl, rfl⟩
      · exact hparts ha ha hy
    | @colon _ lhs types hcolon hargs hlhs _ hnone hlhsNone hfunc htypes =>
      rw [declareTypes_of_colon hcolon hargs]
      rw [expressions_of_colon hcolon hargs] at hparts
      -- neither the colon, nor its left operand, nor what is on its right has a declared type
      have huntyped : ∀ a, Untyped a → ¬EvaluatedIn y a := by
        intro a ha hy
        rw [ha y hy.mem_walk] at htype
        cases htype
      rcases evaluatedIn_iff.mp hy with rfl | ⟨a, ha, hy⟩
      · rw [hnone] at htype
        cases htype
      rcases mem_append.mp ha with ha | ha
      · exact absurd hy (huntyped a (hfunc a (Option.mem_toList.mp ha)))
      rw [hargs, mem_cons] at ha
      rcases ha with rfl | ha
      · rcases evaluatedIn_iff.mp hy with rfl | ⟨b, hb, hy⟩
        · rw [hlhsNone] at htype
          cases htype
        · exact hparts hb (mem_append_left _ hb) hy
      · exact absurd hy (huntyped a (htypes a ha))

end Recording

/-! ### Labels -/

section Labels

variable {n m c : Node}

theorem expressions_anonymous (n : Node) :
    expressions n.anonymous = (expressions n).map anonymous := by
  unfold expressions
  rw [binary?_anonymous]
  split
  · rw [args_anonymous]
    cases n.args with
    | nil => rfl
    | cons lhs types =>
      simp only [map_cons, map_append, evaluated_anonymous, flatMap_map, map_flatMap,
        specifiers_anonymous, flatMap_assoc]
  · exact evaluated_anonymous n

theorem resolved_anonymous : Resolved n.anonymous ↔ Resolved n := by
  unfold Resolved plainNodes
  rw [walk_anonymous, filter_map, forall_mem_map]
  simp only [evaluated_anonymous, forall_mem_map, binary?_anonymous, Function.comp_def]

/-- What the declarations of a tree need does not depend on its labels. -/
theorem ready_anonymous (n : Node) : Ready n.anonymous ↔ Ready n := by
  induction n using expressionsInduction with
  | step n ih =>
    have hinside : (∀ a ∈ expressions n.anonymous, Ready a) ↔ ∀ a ∈ expressions n, Ready a := by
      rw [expressions_anonymous, forall_mem_map]
      exact forall₂_congr ih
    rw [ready_iff, ready_iff n, hinside, binary?_anonymous, type_anonymous, func_anonymous, args_anonymous]
    simp only [Option.forall_mem_map, resolved_anonymous, untyped_anonymous, Option.map_eq_none_iff]
    cases n.args with
    | nil => simp
    | cons lhs types =>
      simp [binary?_anonymous, type_anonymous, untyped_anonymous, specifiers_anonymous]

theorem Ready.label (h : Ready n) (next : Nat) : Ready (n.label next).1 := by
  rwa [← ready_anonymous, anonymous_label, ready_anonymous]

/-- Labelling keeps specifiers that have labels. -/
theorem specifiers_label : ∀ next, (∀ s ∈ n.specifiers, s.id ≠ 0) →
    ((n.label next).1.specifiers).map identity = n.specifiers.map identity := by
  induction n using Node.induction with
  | step n _ ihargs ihtype =>
    intro next h
    have hlist : ∀ (ns : List Node) next, (∀ a ∈ ns, a ∈ n.args) →
        (∀ s ∈ ns.flatMap specifiers, s.id ≠ 0) →
          ((labelList next ns).1.flatMap specifiers).map identity = (ns.flatMap specifiers).map identity := by
      intro ns
      induction ns with
      | nil => exact fun _ _ _ => rfl
      | cons a ns ih =>
        intro next hns hzero
        rw [forall_mem_cons] at hns
        rw [flatMap_cons, forall_mem_append] at hzero
        show (((a.label next).1 :: (labelList (a.label next).2 ns).1).flatMap specifiers).map identity = _
        rw [flatMap_cons, flatMap_cons, map_append, map_append,
          ihargs a hns.1 next hzero.1, ih (a.label next).2 hns.2 hzero.2]
    have htyped : (n.label next).1.isTyped = n.isTyped := by
      rw [← isTyped_anonymous, anonymous_label, isTyped_anonymous]
    -- the specifiers of a colon are those of its operands, any other node is one itself
    cases hn : n.isTyped with
    | true =>
      rw [hn] at htyped
      rw [specifiers_of_isTyped hn] at h ⊢
      rw [specifiers_of_isTyped htyped, label_eq]
      exact hlist n.args _ (fun _ ha => ha) h
    | false =>
      rw [hn] at htyped
      rw [specifiers_of_not hn, forall_mem_cons] at h
      rw [specifiers_of_not hn, specifiers_of_not htyped, map_cons, map_cons]
      congr 1
      · rw [identity, id_label, if_neg h.1, label_eq]
        rfl
      · rw [label_eq]
        cases htype : n.type with
        | none => rfl
        | some t =>
          simp only [htype, Option.toList_some, flatMap_singleton] at h
          simp only [labelOption, Option.toList_some, flatMap_singleton]
          exact ihtype t htype _ h.2

theorem resolved_label {next : Nat} : Resolved (n.label next).1 ↔ Resolved n := by
  rw [← resolved_anonymous, anonymous_label, resolved_anonymous]

end Labels

end Cppward.Analysis
