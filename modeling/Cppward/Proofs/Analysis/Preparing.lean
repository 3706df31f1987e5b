import Cppward.Analysis.Analyse
import Cppward.Proofs.Analysis.Blocks
import Cppward.Proofs.Source.Grammatical

namespace Cppward.Analysis

open Failing Node List

/-!
# The passes on the bare tree

* `Bare` — trees as they are read, without labels and declared types (`bare_of_readModule`).
* `bare_prepare` — the first passes keep trees bare.
-/

variable {call call' n' t : Node}

/-- A tree without labels and declared types. -/
def Bare (n : Node) : Prop := ∀ m ∈ n.walk, m.id = 0 ∧ m.type = none

section Bare

variable {n : Node}

theorem bare_iff : Bare n ↔ (n.id = 0 ∧ n.type = none) ∧ (∀ f ∈ n.func, Bare f) ∧
    ∀ a ∈ n.args, Bare a := by
  rw [Bare, forall_mem_walk_iff]
  constructor
  · rintro ⟨hself, hfunc, hargs, -⟩
    exact ⟨hself, hfunc, hargs⟩
  · rintro ⟨hself, hfunc, hargs⟩
    refine ⟨hself, hfunc, hargs, fun t ht => ?_⟩
    rw [hself.2] at ht
    cases ht

theorem bare_make {kind : Kind} {func : Option Node} {args : List Node} {loc : Nat} :
    Bare (make kind func args loc) ↔ (∀ f ∈ func, Bare f) ∧ ∀ a ∈ args, Bare a := by
  rw [bare_iff]
  exact and_iff_right ⟨rfl, rfl⟩

theorem Bare.args (h : Bare n) : ∀ a ∈ n.args, Bare a := (bare_iff.mp h).2.2

theorem Bare.func (h : Bare n) : ∀ f ∈ n.func, Bare f := (bare_iff.mp h).2.1

theorem bare_of_grammatical (h : n.Grammatical) : Bare n := by
  induction h with
  | make _ _ _ hfunc hargs => exact bare_make.mpr ⟨hfunc, hargs⟩

/-- Modules are bare when they have been read, so what is shown of bare modules holds for them. -/
theorem bare_of_readModule {source : String} (h : Source.readModule source = .ok n) :
    Bare n ∧ n.isModule = true :=
  have hread := Source.grammatical_of_readModule h
  ⟨bare_of_grammatical hread.1, hread.2⟩

theorem bare_ofBlock {ns : List Node} (h : ∀ a ∈ ns, Bare a) : Bare (ofBlock ns) :=
  bare_make.mpr ⟨by simp, h⟩

theorem bare_ident (text : String) : Bare (ident text) :=
  bare_make.mpr ⟨by simp, by simp⟩

theorem Bare.rebuild (h : Bare n) (kind : Kind) {args : List Node} (hargs : ∀ a ∈ args, Bare a) :
    Bare { n.withId 0 with kind, args } :=
  bare_iff.mpr ⟨⟨rfl, (bare_iff.mp h).1.2⟩, h.func, hargs⟩

/-! ### Bodies -/

theorem kept_bare : Kept Bare where
  body hcolon h := by
    have hargs := h.args
    rw [hcolon.2, forall_mem_cons, forall_mem_singleton] at hargs
    exact ⟨hargs.1, bare_ofBlock (forall_mem_singleton.mpr hargs.2)⟩
  elif {n word branch condition statement} hhead hbranch h := by
    have hargs := h.args
    rw [hhead.2, forall_mem_cons, forall_mem_singleton] at hargs
    have hinner := hargs.2.args
    rw [hbranch.2, forall_mem_cons, forall_mem_singleton] at hinner
    refine ⟨h.rebuild _ ?_, bare_ofBlock (forall_mem_singleton.mpr hinner.2)⟩
    exact forall_mem_cons.mpr ⟨hargs.1, forall_mem_singleton.mpr hinner.1⟩

theorem exists_splice_of_scan : ∀ {rest : List Node} {i : Nat},
    Branch.scan call i rest = .ok (some call') → ∃ i new, call' = Branch.splice call i new := by
  intro rest
  induction rest with
  | nil =>
    intro i h
    cases h
  | cons a rest ih =>
    intro i h
    rw [Branch.scan] at h
    repeat' split at h
    all_goals first
      | exact ih h
      | cases h; exact ⟨_, _, rfl⟩
      | cases h

theorem exists_splice_of_step (h : Branch.step call = .ok (some call')) :
    ∃ i new, call' = Branch.splice call i new := by
  rw [Branch.step] at h
  repeat' split at h
  all_goals first
    | exact exists_splice_of_scan h
    | cases h; exact ⟨_, _, rfl⟩
    | cases h

theorem fields_normalizeIf {fuel : Nat} {m : Node} (h : normalizeIf fuel call = .ok m) :
    m.type = call.type ∧ (m.id = call.id ∨ m.id = 0) := by
  induction fuel generalizing call with
  | zero =>
    cases h
    exact ⟨rfl, .inl rfl⟩
  | succ fuel ih =>
    obtain ⟨result, hstep, h⟩ := bind_eq_ok.mp h
    cases result with
    | none =>
      cases h
      exact ⟨rfl, .inl rfl⟩
    | some call' =>
      obtain ⟨i, new, rfl⟩ := exists_splice_of_step hstep
      obtain ⟨htype, hid⟩ := ih h
      exact ⟨htype, .inr (hid.elim id id)⟩

theorem bare_clauseForm (h : Bare n) : Bare (clauseForm n) := by
  rw [clauseForm]
  split
  · split
    · exact h.rebuild _ h.args
    · exact h
  · have hword : Bare { ident "return" with info := (n.withId 0).info } :=
      bare_iff.mpr ⟨⟨rfl, rfl⟩, by simp [ident, make], by simp [ident, make]⟩
    exact h.rebuild _ (forall_mem_cons.mpr ⟨hword, h.args⟩)
  · exact h

theorem bare_blockLast (h : Bare n) : Bare (blockLast n) := by
  rw [blockLast]
  split
  · rename_i last hlast
    split
    · exact h
    · refine h.rebuild _ fun a ha => ?_
      rcases mem_append.mp ha with ha | ha
      · exact h.args a (dropLast_subset _ ha)
      · rw [mem_singleton.mp ha]
        exact bare_ofBlock (forall_mem_singleton.mpr (h.args last (mem_of_getLast? hlast)))
  · exact h

/-- Returning the last statement adds no labels. -/
theorem bare_returnLast {statements new : List Node} (h : returnLast statements = .ok new)
    (hstatements : ∀ s ∈ statements, Bare s) : ∀ s ∈ new, Bare s := by
  rw [returnLast] at h
  split at h
  · cases h
  · rename_i last hlast
    have hlast := hstatements last (mem_of_getLast? hlast)
    split at h
    · cases h
      exact hstatements
    · split at h
      · cases h
        intro s hs
        rcases mem_append.mp hs with hs | hs
        · exact hstatements s hs
        · rw [mem_singleton.mp hs]
          exact bare_ident _
      · cases h
        intro s hs
        rcases mem_append.mp hs with hs | hs
        · exact hstatements s (dropLast_subset _ hs)
        · rw [mem_singleton.mp hs]
          refine bare_make.mpr ⟨by simp, forall_mem_cons.mpr ⟨bare_ident _, ?_⟩⟩
          exact forall_mem_singleton.mpr hlast

theorem bare_completeLambda (h : Bare n) (hrun : completeLambda n = .ok n') : Bare n' := by
  have hblock := bare_blockLast h
  rw [completeLambda] at hrun
  split at hrun
  · cases hrun
  · rename_i body hbody
    obtain ⟨statements, hstatements, hrun⟩ := bind_eq_ok.mp hrun
    cases hrun
    have hbare := hblock.args body (mem_of_getLast? hbody)
    have hbody' : Bare { body with args := statements } := by
      refine bare_iff.mpr ⟨(bare_iff.mp hbare).1, hbare.func, ?_⟩
      exact bare_returnLast hstatements hbare.args
    refine bare_iff.mpr ⟨(bare_iff.mp hblock).1, hblock.func, fun a ha => ?_⟩
    rcases mem_append.mp ha with ha | ha
    · exact hblock.args a (dropLast_subset _ ha)
    · rw [mem_singleton.mp ha]
      exact hbody'

theorem bare_normalizeIf (hcall : n.isCall = true) (h : Bare n)
    (hrun : normalizeIf (n.args.length + 1) n = .ok n') : Bare n' := by
  rcases normalizeIf_cases hcall (Nat.lt_succ_of_le (openBranches_le n.args)) with
    ⟨m, _, _, hm, hsettled, _⟩ | ⟨_, he, _⟩
  · cases hm.symm.trans hrun
    obtain ⟨htype, hid⟩ := fields_normalizeIf hrun
    obtain ⟨⟨hzero, hnone⟩, hfunc, hargs⟩ := bare_iff.mp h
    refine bare_iff.mpr ⟨⟨hid.elim (fun h => h.trans hzero) id, htype.trans hnone⟩, ?_,
      hsettled.kept _ kept_bare hargs⟩
    rw [hsettled.func_eq]
    exact hfunc
  · rw [he] at hrun
    cases hrun

/-- Expanding a body adds no labels. -/
theorem bare_expandBody (h : Bare n) (hrun : expandBody n = .ok n') : Bare n' := by
  have hform := bare_clauseForm h
  rw [expandBody] at hrun
  generalize clauseForm n = m at hrun hform
  split at hrun
  · cases hrun
    exact hform
  rename_i hcall
  have hcall : m.isCall = true := by simpa using hcall
  split at hrun
  · split at hrun
    · cases hrun
    · cases hrun
      exact hform
  split at hrun
  · split at hrun
    · cases hrun
    · exact bare_completeLambda hform hrun
  split at hrun
  · exact bare_normalizeIf hcall hform hrun
  split at hrun
  · split at hrun
    · cases hrun
    · cases hrun
      exact bare_blockLast hform
  · cases hrun
    exact hform

theorem bare_expandBodiesTo (depth : Nat) : ∀ {n m : Node}, Bare n → expandBodiesTo depth n = .ok m →
    Bare m := by
  induction depth with
  | zero =>
    intro n m h hrun
    cases hrun
    exact h
  | succ depth ih =>
    intro n m h hrun
    rcases expandBodiesTo_cases hrun with ⟨_, rfl⟩ | ⟨n', args, func, hbody, hargs, hfunc, rfl⟩
    · exact h
    · have h' := bare_expandBody h hbody
      refine bare_iff.mpr ⟨(bare_iff.mp h').1, fun f hf => ?_, fun a ha => ?_⟩
      · obtain ⟨_, rfl⟩ | ⟨g, g', hg, rfl, hg'⟩ := mapMOption_eq_ok hfunc
        · cases hf
        · cases hf
          exact ih (h'.func g hg) hg'
      · obtain ⟨b, hb, hb'⟩ := exists_mem_of_forall₂ hargs ha
        exact ih (h'.args b hb) hb'

/-! ### Named arguments -/

theorem nameArgumentsList_eq (inCall : Bool) (ns : List Node) :
    nameArgumentsList inCall ns = ns.map (nameArguments inCall) :=
  eq_map rfl (fun _ _ => rfl) ns

/-- Naming arguments adds no labels. -/
theorem bare_nameArguments (n : Node) : Bare n → (∀ inCall, Bare (nameArguments inCall n)) ∧
    ∀ (info : Info) (op : String), info.id = 0 → Bare (nameOperand info op n) := by
  -- both statements at once: the operand of a sign is rewritten together with the sign
  induction n using Node.induction with
  | step n _ ihargs _ =>
    intro h
    obtain ⟨⟨hid, htype⟩, hfunc, hargs⟩ := bare_iff.mp h
    have hlist : ∀ inCall, ∀ a ∈ nameArgumentsList inCall n.args, Bare a := by
      intro inCall
      rw [nameArgumentsList_eq, forall_mem_map]
      exact fun a ha => (ihargs a ha (hargs a ha)).1 inCall
    have hrest : ∀ (a : Node) (as : List Node), n.args = a :: as → ∀ b ∈ nameArgumentsList false as,
        Bare b := by
      intro a as has b hb
      refine hlist false b ?_
      rw [has]
      exact mem_cons_of_mem _ hb
    obtain ⟨info, kind, func, args, type⟩ := n
    refine ⟨fun inCall => ?_, fun info' op hinfo => ?_⟩
    · unfold nameArguments
      split
      · exact bare_iff.mpr ⟨⟨hid, htype⟩, hfunc, hlist true⟩
      · exact bare_iff.mpr ⟨⟨rfl, rfl⟩, by simp, hlist false⟩
      · exact bare_iff.mpr ⟨⟨rfl, rfl⟩, by simp, hlist false⟩
      · refine bare_iff.mpr ⟨⟨?_, htype⟩, hfunc, ?_⟩
        · split
          · rfl
          · exact hid
        · cases args with
          | nil => exact fun a ha => by cases ha
          | cons a as =>
            have ha : a ∈ a :: as := mem_cons_self
            exact forall_mem_cons.mpr ⟨(ihargs a ha (hargs a ha)).2 _ _ rfl, hrest a as rfl⟩
      · cases args with
        | nil => exact h
        | cons a as =>
          have ha : a ∈ a :: as := mem_cons_self
          have hfirst := (ihargs a ha (hargs a ha)).1 false
          rw [nameContent]
          split
          · exact hfirst
          · exact bare_iff.mpr ⟨⟨hid, htype⟩, hfunc, forall_mem_cons.mpr ⟨hfirst, hrest a as rfl⟩⟩
      · exact bare_iff.mpr ⟨⟨hid, htype⟩, hfunc, hlist false⟩
    · unfold nameOperand
      split
      · exact bare_iff.mpr ⟨⟨hinfo, rfl⟩, by simp, hlist false⟩
      · exact bare_iff.mpr ⟨⟨hinfo, rfl⟩, by simp, hlist false⟩
      · exact bare_iff.mpr ⟨⟨hid, htype⟩, hfunc, hlist true⟩
      · exact bare_iff.mpr ⟨⟨hid, htype⟩, hfunc, hlist false⟩

/-! ### Parentheses -/

theorem removeParensList_eq (ns : List Node) :
    (removeParensList ns).1 = ns.map fun n => (removeParens n).1 := by
  induction ns with
  | nil => rfl
  | cons n ns ih =>
    rw [removeParensList, map_cons, ← ih]

theorem removeParensOption_eq (o : Option Node) :
    (removeParensOption o).1 = o.map fun n => (removeParens n).1 := by
  cases o <;> rfl

theorem removeInside_eq (n : Node) : (removeInside n).1 =
    { n with
      func := n.func.map fun f => (removeParens f).1
      args := n.args.map fun a => (removeParens a).1 } := by
  obtain ⟨info, kind, func, args, type⟩ := n
  rw [removeInside, ← removeParensList_eq, ← removeParensOption_eq]

theorem removeParens_eq (n : Node) : (removeParens n).1 =
    match n.kind, n.args with
    | .parens, a :: _ => (removeInside a).1
    | .parens, [] => n
    | _, _ => (removeInside n).1 := by
  obtain ⟨info, kind, func, args, type⟩ := n
  unfold removeParens
  cases kind with
  | parens => cases args <;> rfl
  | _ => rfl

/-- What holds of the nodes, apart from their parts, still holds when parentheses are removed. -/
theorem forall_mem_removeParens {P : Info → Kind → Option Node → Prop} (n : Node) :
    (∀ m ∈ n.walk, P m.info m.kind m.type) →
      (∀ m ∈ (removeParens n).1.walk, P m.info m.kind m.type) ∧
        ∀ m ∈ (removeInside n).1.walk, P m.info m.kind m.type := by
  induction n using Node.induction with
  | step n ihfunc ihargs _ =>
    intro h
    obtain ⟨hown, hfunc, hargs, htype⟩ := forall_mem_walk_iff.mp h
    have hinside : ∀ m ∈ (removeInside n).1.walk, P m.info m.kind m.type := by
      rw [removeInside_eq]
      refine forall_mem_walk_iff.mpr ⟨hown, ?_, ?_, htype⟩
      · intro _ hmem
        obtain ⟨f, hf, rfl⟩ := Option.map_eq_some_iff.mp hmem
        exact (ihfunc f hf (hfunc f hf)).1
      · exact forall_mem_map.mpr fun a ha => (ihargs a ha (hargs a ha)).1
    refine ⟨?_, hinside⟩
    rw [removeParens_eq]
    split
    · rename_i a as _ has
      have ha : a ∈ n.args := by simp [has]
      exact (ihargs a ha (hargs a ha)).2
    · exact h
    · exact hinside

/-! ### All passes -/

theorem isModule_prepare (h : n.isModule = true) (hrun : (prepare n).result = .ok t) :
    t.isModule = true := by
  rw [prepare] at hrun
  split at hrun
  · cases hrun
  · rename_i m hm
    cases hrun
    have hkind : n.kind = .module := beq_iff_eq.mp h
    have hm' : m.kind = .module := by
      rcases expandBodiesTo_cases hm with ⟨_, rfl⟩ | ⟨n', args, func, hbody, _, _, rfl⟩
      · exact hkind
      · have hform : expandBody n = .ok n := by
          simp [expandBody, clauseForm, hkind, isCall]
        cases hform.symm.trans hbody
        exact hkind
    obtain ⟨info, kind, func, args, type⟩ := m
    cases hm'
    rfl

/-- **The first passes keep a tree bare.** -/
theorem bare_prepare (h : Bare n) (hrun : (prepare n).result = .ok t) : Bare t := by
  rw [prepare] at hrun
  split at hrun
  · cases hrun
  · rename_i m hm
    cases hrun
    exact (forall_mem_removeParens (P := fun info _ type => info.id = 0 ∧ type = none) _
      ((bare_nameArguments m (bare_expandBodiesTo _ h hm)).1 false)).1

end Bare

end Cppward.Analysis
