import Cppward.Proofs.Analysis.Preparing
import Cppward.Proofs.Analysis.Scoping
import Cppward.Proofs.Analysis.Securing
import Cppward.Proofs.Grammar.Yield

namespace Cppward.Analysis

open Node Stateful List

/-!
# The tree of an analysed program

* `Unshared` — trees in which nothing makes a declared type stand at two places.
* `tree_invariant` — every node of an analysed program belongs to a scope; and if nothing is shared,
  every node stands at one place and is held by the node that it is recorded to be held by.
-/

variable {u : Unit} {plain : Prop} {K : Node → Node → Prop}

/-! ### Tables that are made anew -/

section Refresh

variable {p q : Program} {tree : Node}

/-- A table that is filled has what it was filled with, or what it had before. -/
theorem entry_foldl_set {xs : List Node} {table : Array Node} {i : Nat} {e : Node}
    (h : (xs.foldl (fun table n => table.setIfInBounds n.id n) table)[i]? = some e) :
    (e ∈ xs ∧ e.id = i) ∨ i ∉ xs.map Node.id ∧ table[i]? = some e := by
  induction xs generalizing table with
  | nil => exact .inr ⟨not_mem_nil, h⟩
  | cons x xs ih =>
    rw [foldl_cons] at h
    rcases ih h with ⟨he, hid⟩ | ⟨hnot, he⟩
    · exact .inl ⟨mem_cons_of_mem x he, hid⟩
    · rw [Array.getElem?_setIfInBounds] at he
      split at he
      · rename_i hx
        split at he
        · cases he
          exact .inl ⟨mem_cons_self, hx⟩
        · cases he
      · rename_i hx
        refine .inr ⟨?_, he⟩
        rw [map_cons, mem_cons, not_or]
        exact ⟨Ne.symm hx, hnot⟩

namespace Program

theorem size_scopeTable_refresh : (p.refresh tree).nodes.size ≤ (p.refresh tree).scopeTable.size := by
  rw [size_nodes_refresh]
  show _ ≤ (p.scopeTable ++ Array.replicate _ none).size
  rw [Array.size_append, Array.size_replicate]
  omega

theorem limit_refresh : (p.refresh tree).limit = (tree.label (max 1 p.nodes.size)).2 := by
  have hle := (labels_label tree _ (Nat.le_max_left 1 p.nodes.size)).1
  rw [limit, size_nodes_refresh]
  omega

theorem bounded_refresh (h : tree.Below p.limit) : (p.refresh tree).Bounded := by
  have hnew := below_label p.limit_pos h
  intro l e he
  rw [limit_refresh]
  rw [nodes_refresh] at he
  rcases entry_foldl_set he with ⟨hmem, _⟩ | ⟨_, he⟩
  · exact fun m hm => hnew m (mem_walk_trans hmem hm)
  · rw [Array.getElem?_replicate] at he
    split at he
    · cases he
      exact below_default (by omega)
    · cases he

/-- The new tree is found in the new tables, and all its nodes have labels there. -/
theorem hasPlace_refresh (h : tree.Below p.limit) :
    ∀ m ∈ (p.refresh tree).tree.walk, (p.refresh tree).HasPlace m := by
  have hnew := below_label p.limit_pos h
  have hzero := id_ne_zero_of_mem_walk_label tree _ p.limit_pos
  have hroot : (p.refresh tree).root = (tree.label p.limit).1.id := rfl
  have hlt := hnew _ (self_mem_walk _)
  have hsome : (p.refresh tree).root < (p.refresh tree).nodes.size := by
    rw [size_nodes_refresh, hroot]
    exact hlt
  obtain ⟨e, hentry⟩ : ∃ e, (p.refresh tree).nodes[(p.refresh tree).root]? = some e :=
    ⟨_, Array.getElem?_eq_getElem hsome⟩
  have htree : (p.refresh tree).tree = e := by
    have hne : (p.refresh tree).root ≠ 0 := hzero _ (self_mem_walk _)
    rw [Program.tree, node?, if_neg (by simpa using hne), hentry, Option.getD_some]
  have hmem : e ∈ (tree.label p.limit).1.walk := by
    rw [nodes_refresh] at hentry
    rcases entry_foldl_set hentry with ⟨hmem, _⟩ | ⟨hnot, _⟩
    · exact hmem
    · exact absurd (mem_map_of_mem (self_mem_walk _)) hnot
  intro m hm
  rw [htree] at hm
  have hm' := mem_walk_trans hmem hm
  refine ⟨hzero m hm', Nat.lt_of_lt_of_le (hnew m hm') ?_⟩
  exact Nat.le_trans (Nat.le_of_eq size_nodes_refresh.symm) size_scopeTable_refresh

theorem Knows.congr (h : p.Knows tree) (hnodes : q.nodes = p.nodes) (hparents : q.parents = p.parents) :
    q.Knows tree := by
  have hnode : ∀ l, q.node? l = p.node? l := fun l => by rw [node?, node?, hnodes]
  have hlabel : ∀ n, q.parentLabel? n = p.parentLabel? n := fun n => by
    rw [parentLabel?, parentLabel?, hparents]
  refine ⟨⟨h.numbers.labelled, h.numbers.ne_zero, ?_⟩, fun m hm => ?_, ?_, ?_⟩
  · rw [hnodes]
    exact h.numbers.lt_size
  · rw [hnode]
    exact ⟨(h.links m hm).1, fun part hpart => (hlabel part).trans ((h.links m hm).2 part hpart)⟩
  · rw [hlabel]
    exact h.top
  · rw [hnodes, hparents]
    exact h.size

end Program

end Refresh

/-! ### Passes that change scopes only -/

def ChangesScopes (f : Program → Program) : Prop :=
  ∀ p : Program, ∃ table, f p = { p with scopeTable := table }

theorem changesScopes_clearList {ns : List Node} (h : ∀ n ∈ ns, ChangesScopes (clearScopes n)) :
    ChangesScopes (clearList ns) := by
  induction ns with
  | nil => exact fun p => ⟨p.scopeTable, rfl⟩
  | cons n ns ih =>
    intro p
    rw [forall_mem_cons] at h
    obtain ⟨table, hfirst⟩ := h.1 p
    obtain ⟨table', hrest⟩ := ih h.2 (clearScopes n p)
    exact ⟨table', by rw [clearList, hrest, hfirst]⟩

theorem changesScopes_clearOption {o : Option Node} (h : ∀ n ∈ o, ChangesScopes (clearScopes n)) :
    ChangesScopes (clearOption o) := by
  intro p
  cases o with
  | none => exact ⟨p.scopeTable, rfl⟩
  | some n => exact h n rfl p

theorem changesScopes_clearScopes (n : Node) : ChangesScopes (clearScopes n) := by
  induction n using Node.induction with
  | step n ihfunc ihargs _ =>
    obtain ⟨info, kind, func, args, type⟩ := n
    intro p
    obtain ⟨table, hargs⟩ := changesScopes_clearList ihargs
      { p with scopeTable := p.scopeTable.setIfInBounds info.id none }
    obtain ⟨table', hfunc⟩ := changesScopes_clearOption ihfunc { p with scopeTable := table }
    exact ⟨table', by rw [clearScopes, hargs, hfunc]⟩

theorem changesScopes_clearProgram : ChangesScopes clearProgram := by
  intro p
  obtain ⟨table, hargs⟩ := changesScopes_clearList (fun n _ => changesScopes_clearScopes n) p
  obtain ⟨table', hfunc⟩ := changesScopes_clearOption (fun n _ => changesScopes_clearScopes n)
    { p with scopeTable := table }
  exact ⟨table', by rw [clearProgram, hargs, hfunc]⟩

/-! ### Assigning scopes -/

section Assign

variable {p q : Program}

theorem assignScopes_eq_ok (h : assignScopes.run p = .ok (u, q)) :
    (resolve (p.refresh (declareTypes p.tree)).tree).run (p.refresh (declareTypes p.tree)) =
      .ok ((), q) := h

theorem scoped_assignScopes (htree : p.tree.Below p.limit)
    (h : assignScopes.run p = .ok (u, q)) : ∀ m ∈ q.tree.walk, (q.scopeOf? m).isSome := by
  have hrun := assignScopes_eq_ok h
  have hgrow := growsScopes_resolve _ _ _ _ hrun
  rw [hgrow.tree]
  exact scoped_resolve _ (Program.hasPlace_refresh (below_declareTypes p.limit_pos _ htree)) hrun

theorem knows_assignScopes (hnodup : p.tree.labels.Nodup)
    (hlt : ∀ l ∈ p.tree.labels, l < p.limit) (hdeclarable : Declarable p.tree)
    (h : assignScopes.run p = .ok (u, q)) :
    q.Knows q.tree ∧ q.tree = ((declareTypes p.tree).label p.limit).1 := by
  have hsub := sublist_labels_declareTypes hdeclarable
  obtain ⟨htree, hknows⟩ := Program.knows_refresh (p := p) (hnodup.sublist hsub)
    fun l hl => hlt l (hsub.subset hl)
  have hgrow := growsScopes_resolve _ _ _ _ (assignScopes_eq_ok h)
  rw [hgrow.tree, htree]
  exact ⟨hknows.congr hgrow.nodes hgrow.parents, rfl⟩

end Assign

/-! ### Types at two places -/

/-- Some node of the tree has a declared type. -/
def hasTypes (n : Node) : Bool := n.walk.any (·.type.isSome)

/-- The node lets a declared type come to stand at two places.  A colon does so if there are types in
    its right operand, and a loop if there are types in the copy of its container. -/
def isSharing (n : Node) : Bool :=
  n.binary? == some .typed && n.args.tail.any hasTypes ||
    n.funcName? == some "for" && n.args.any fun head =>
      head.isBinary && head.op? == some "in" &&
        head.args[1]?.any fun container => !container.isIdent && hasTypes container.copy

/-- No node of the tree lets a declared type stand at two places. -/
def Unshared (n : Node) : Prop := n.any isSharing = false

section Unshared

variable {n : Node}

theorem untyped_iff : Untyped n ↔ hasTypes n = false := by
  simp [Untyped, hasTypes, any_eq_false]

theorem Unshared.self (h : Unshared n) : isSharing n = false := by
  by_contra hn
  rw [Bool.not_eq_false] at hn
  rw [Unshared, any_eq_true_iff.mpr ⟨n, .self, hn⟩] at h
  cases h

theorem Unshared.part (h : Unshared n) {a : Node} (ha : a ∈ n.evaluated) : Unshared a := by
  by_contra hpart
  rw [Unshared, Bool.not_eq_false, any_eq_true_iff] at hpart
  obtain ⟨m, hm, htest⟩ := hpart
  rw [Unshared, any_eq_true_iff.mpr ⟨m, .part ha hm, htest⟩] at h
  cases h

theorem Unshared.declarable (h : Unshared n) : Declarable n := by
  induction n using evaluatedInduction with
  | step n ih =>
    refine .make (fun hcolon a ha => ?_) fun a ha => ih a ha (h.part ha)
    have hself := h.self
    rw [isSharing, Bool.or_eq_false_iff] at hself
    simp only [hcolon, beq_self_eq_true, Bool.true_and, any_eq_false, Bool.not_eq_true] at hself
    exact untyped_iff.mpr (hself.1 a ha)

theorem Unshared.wrappable (h : Unshared n) : Wrappable n := by
  induction n using evaluatedInduction with
  | step n ih =>
    refine .make (fun hfor a ha hbinary hop c hc hident => ?_) fun a ha => ih a ha (h.part ha)
    have hself := h.self
    rw [isSharing, Bool.or_eq_false_iff] at hself
    simp only [hfor, beq_self_eq_true, Bool.true_and, any_eq_false] at hself
    have hhead := hself.2 a ha
    simp only [hbinary, hop, hc, hident, Option.any_some, Bool.not_false, Bool.true_and,
      beq_self_eq_true, Bool.not_eq_true] at hhead
    exact untyped_iff.mpr hhead

/-! ### Labels do not matter -/

theorem name?_anonymous (n : Node) : n.anonymous.name? = n.name? := by
  rw [name?, name?, kind_anonymous]

theorem isIdent_anonymous (n : Node) : n.anonymous.isIdent = n.isIdent := by
  rw [isIdent, isIdent, name?_anonymous]

theorem copy_anonymous (n : Node) : n.anonymous.copy = n.copy.anonymous := by
  induction n using Node.induction with
  | step n ihfunc ihargs _ =>
    rw [copy_eq, copy_eq n, isIdent_anonymous]
    split
    · rfl
    · have hfunc : (n.func.map anonymous).map copy = (n.func.map copy).map anonymous := by
        cases hn : n.func with
        | none => rfl
        | some f => exact congrArg some (ihfunc f hn)
      have hargs : (n.args.map anonymous).map copy = (n.args.map copy).map anonymous := by
        rw [map_map, map_map]
        exact map_congr_left ihargs
      rw [kind_anonymous, func_anonymous, args_anonymous, hfunc, hargs]
      simp only [anonymous_eq, Option.map_none]

theorem wrapsPlain_anonymous {head : Node} : WrapsPlain head.anonymous ↔ WrapsPlain head := by
  rw [WrapsPlain, args_anonymous, getElem?_map]
  cases hc : head.args[1]? with
  | none => simp [WrapsPlain, hc]
  | some c => simp [WrapsPlain, hc, isIdent_anonymous, copy_anonymous, untyped_anonymous]

theorem funcName?_anonymous (n : Node) : n.anonymous.funcName? = n.funcName? := by
  rw [funcName?, funcName?, func_anonymous]
  cases n.func with
  | none => rfl
  | some f => exact name?_anonymous f

theorem wrappable_anonymous (n : Node) : Wrappable n.anonymous ↔ Wrappable n := by
  induction n using evaluatedInduction with
  | step n ih =>
    rw [wrappable_iff, wrappable_iff n, funcName?_anonymous, args_anonymous, evaluated_anonymous]
    simp only [forall_mem_map, isBinary, binary?_anonymous, op?, kind_anonymous,
      wrapsPlain_anonymous]
    exact and_congr_right fun _ => forall₂_congr ih

end Unshared

/-! ### All passes -/

section Analyse

variable {p q : Program} {t module : Node}

theorem Program.Knows.place (h : p.Knows t) : Place p [t] [] := by
  have hlabels := labels_eq_map h.numbers.ne_zero
  refine ⟨⟨h.size, nofun, nofun⟩, ?_, forall_mem_singleton.mpr h.numbers.ne_zero,
    forall_mem_singleton.mpr h.links, forall_mem_singleton.mpr fun l hl => ?_, ?_⟩
  · rw [flatMap_singleton, hlabels]
    exact h.numbers.labelled
  · rw [h.top] at hl
    cases hl
  · exact fun _ _ => not_mem_nil

theorem Program.Knows.bounds (h : p.Knows t) : t.Below p.limit ∧ t.labels.Nodup ∧
    ∀ l ∈ t.labels, l < p.limit := by
  have hbelow : t.Below p.limit := fun m hm =>
    Nat.lt_of_lt_of_le (h.numbers.lt_size m hm) (Nat.le_max_right 1 _)
  refine ⟨hbelow, ?_, fun l hl => ?_⟩
  · rw [labels_eq_map h.numbers.ne_zero]
    exact h.numbers.labelled
  · obtain ⟨_, m, hm, rfl⟩ := mem_labels.mp hl
    exact hbelow m hm

theorem Bare.labels_eq_nil (h : Bare t) : t.labels = [] := by
  rw [eq_nil_iff_forall_not_mem]
  intro l hl
  obtain ⟨hzero, m, hm, rfl⟩ := mem_labels.mp hl
  exact hzero (h m hm).1

theorem knows_resume (h : Bare t) : ∃ k, (({} : Program).resume t).tree = (t.label k).1 ∧
    (({} : Program).resume t).Knows (t.label k).1 := by
  have hnone := h.labels_eq_nil
  refine ⟨_, Program.knows_refresh ?_ ?_⟩
  · rw [hnone]
    exact nodup_nil
  · rw [hnone]
    exact nofun

/-- What is known about a program when its tree is checked. -/
structure Checkable (p : Program) (t : Node) : Prop where
  knows : p.Knows p.tree
  root : p.root = p.tree.id
  bounded : p.Bounded
  anonymous : p.tree.anonymous = (declareTypes t).anonymous

theorem checkable_assignScopes (h : Bare t)
    (hrun : assignScopes.run (({} : Program).resume t) = .ok (u, p)) : Checkable p t := by
  obtain ⟨k, htree, hknows⟩ := knows_resume h
  obtain ⟨hbelow, hnodup, hlt⟩ := hknows.bounds
  have huntyped : Untyped (t.label k).1 := (untyped_label k).mpr fun m hm => (h m hm).2
  have hassigned := knows_assignScopes (by rwa [htree]) (by rwa [htree])
    (by rw [htree]; exact huntyped.declarable) hrun
  have hgrow := growsScopes_resolve _ _ _ _ (assignScopes_eq_ok hrun)
  refine ⟨hassigned.1, ?_, Program.Bounded.congr ?_ hgrow.nodes, ?_⟩
  · rw [hassigned.2, hgrow.root, Program.root_refresh]
    rfl
  · rw [htree]
    exact Program.bounded_refresh (below_declareTypes (Program.limit_pos _) _ hbelow)
  · rw [hassigned.2, anonymous_label, htree, ← declareTypes_anonymous, anonymous_label,
      declareTypes_anonymous]

theorem Checkable.isCall (h : Checkable p t) (hmodule : t.isModule = true) : p.tree.isCall = false := by
  have hkind : t.kind = .module := beq_iff_eq.mp hmodule
  have hdeclared : (declareTypes t).kind = .module := by
    rw [declareTypes_of_ne (by simp [binary?, hkind])]
    exact hkind
  have hanonymous := congrArg Node.kind h.anonymous
  rw [kind_anonymous, kind_anonymous, hdeclared] at hanonymous
  rw [Node.isCall, hanonymous]

theorem below_checkSafety (h : Checkable p t) (hrun : checkSafety.run p = .ok (u, q)) :
    q.tree.Below q.limit := by
  obtain ⟨r, q', hrun, hq⟩ := bind_eq_ok.mp (get_bind_eq_ok.mp hrun)
  cases pure_eq_ok.mp hq
  have hbounds := bounds_checkSafetyTo _ h.bounded h.knows.bounds.1 hrun
  rw [Program.tree]
  cases he : q.node? q.root with
  | none => exact below_default q.limit_pos
  | some e => exact hbounds.bounded.node? he

theorem Secures.lt_limit {n r : Node}
    (h : Secures plain K p [n] [] [r] q) (hplace : Place p [n] []) : ∀ l ∈ r.labels, l < q.limit := by
  intro l hl
  refine Nat.lt_of_lt_of_le ?_ (Nat.le_max_right 1 _)
  rcases h.spread.mem l (by simpa using hl) with hl | hl
  · exact Nat.lt_of_lt_of_le (hplace.lt_size hl) h.frame.size_le
  · exact hl.2

/-- The tree after the safety checks stands to the one before in all relations that they respect. -/
theorem secures_checkSafety (hK : Respected plain K)
    (h : Checkable p t) (hmodule : t.isModule = true) (hplain : plain → Wrappable p.tree)
    (hrun : checkSafety.run p = .ok (u, q)) :
    Secures plain K p [p.tree] [] [q.tree] q ∧ q.tree.RootAlone := by
  obtain ⟨r, q', hrun, hq⟩ := bind_eq_ok.mp (get_bind_eq_ok.mp hrun)
  cases pure_eq_ok.mp hq
  have hheld : p.parent? p.tree = none := by
    rw [Program.parent?, h.knows.top]
    rfl
  have hhead : plain → (loopBody? p p.tree).isSome = true → WrapsPlain p.tree := by
    intro _ hsome
    obtain ⟨_, _, loop, hloop, _⟩ := loopBody?_isSome hsome
    rw [hheld] at hloop
    cases hloop
  obtain ⟨hsecures, hroot⟩ := secures_checkSafetyTo hK _ h.knows.place ⟨hplain, hhead⟩ hrun
  obtain ⟨hid, halone⟩ := hroot (h.isCall hmodule)
  have hbounds := bounds_checkSafetyTo _ h.bounded h.knows.bounds.1 hrun
  -- the tree of a module is no call, so that it keeps its label
  have htree : q.tree = r := by
    rw [Program.tree, hbounds.root, h.root, ← hid, hsecures.entries r mem_cons_self,
      Option.getD_some]
  rw [htree]
  exact ⟨hsecures, halone⟩

theorem nodup_checkSafety (h : Checkable p t) (hmodule : t.isModule = true)
    (hunshared : Unshared (declareTypes t)) (hrun : checkSafety.run p = .ok (u, q)) :
    q.tree.labels.Nodup ∧ (∀ l ∈ q.tree.labels, l < q.limit) ∧ Declarable q.tree := by
  have hdeclarable : Declarable p.tree := by
    rw [← declarable_anonymous, h.anonymous, declarable_anonymous]
    exact hunshared.declarable
  have hwrappable : Wrappable p.tree := by
    rw [← wrappable_anonymous, h.anonymous, wrappable_anonymous]
    exact hunshared.wrappable
  obtain ⟨hsecures, _⟩ := secures_checkSafety respected_typesKept h hmodule (fun _ => hwrappable) hrun
  have hdrawn := hsecures.spread.drawn trivial
  rw [flatMap_singleton, flatMap_singleton] at hdrawn
  refine ⟨hdrawn.nodup h.knows.bounds.2.1 h.knows.place.lt_size_self, hsecures.lt_limit h.knows.place, ?_⟩
  cases hsecures.kept with
  | cons hkept _ => exact hkept.declarable hdeclarable

/-- The passes of an analysis that succeeds: between the two that assign scopes, the tree is checked,
    and the nodes are taken out of their scopes. -/
theorem runs_of_analyse (h : (analyse module).result = .ok p) : ∃ t p₁ p₂ p₃,
    (prepare module).result = .ok t ∧ assignScopes.run (({} : Program).resume t) = .ok ((), p₁) ∧
      checkSafety.run p₁ = .ok ((), p₂) ∧ assignScopes.run (clearProgram p₂) = .ok ((), p₃) ∧
        p = dropEmptyScopes p₃ := by
  rw [analyse, analyseAfter] at h
  split at h
  · cases h
  · rename_i warnings t hprepare
    cases hrun : analyseProgram.run (({} : Program).resume t) with
    | error e =>
      rw [hrun] at h
      cases h
    | ok result =>
      rw [hrun] at h
      obtain rfl : result.2 = p := Except.ok.inj h
      obtain ⟨_, p₁, hfirst, hrun⟩ := bind_eq_ok.mp hrun
      obtain ⟨_, p₂, hcheck, hrun⟩ := bind_eq_ok.mp hrun
      rw [modify_bind_eq_ok] at hrun
      obtain ⟨_, p₃, hsecond, hrun⟩ := bind_eq_ok.mp hrun
      cases hrun
      exact ⟨t, p₁, p₂, p₃, by rw [hprepare], hfirst, hcheck, hsecond, rfl⟩

/-- The passes, where of the cleared program only the scopes are other. -/
theorem passes_of_analyse (h : (analyse module).result = .ok p) : ∃ t p₁ p₂ table p₃,
    (prepare module).result = .ok t ∧ assignScopes.run (({} : Program).resume t) = .ok ((), p₁) ∧
      checkSafety.run p₁ = .ok ((), p₂) ∧
        assignScopes.run { p₂ with scopeTable := table } = .ok ((), p₃) ∧ p = dropEmptyScopes p₃ := by
  obtain ⟨t, p₁, p₂, p₃, ht, hfirst, hcheck, hsecond, rfl⟩ := runs_of_analyse h
  obtain ⟨table, hclear⟩ := changesScopes_clearProgram p₂
  rw [hclear] at hsecond
  exact ⟨t, p₁, p₂, table, p₃, ht, hfirst, hcheck, hsecond, rfl⟩

/-- **Trees of analysed programs.**  For every bare module, such as one that has been read, every node of
    the tree belongs to a scope.  If recording types and wrapping containers share nothing, then no node
    stands at two places, every node but the module is held by the node that it is part of, and the
    module is held by none. -/
theorem tree_invariant (hbare : Bare module) (hmodule : module.isModule = true)
    (h : (analyse module).result = .ok p) :
    (∀ n ∈ p.tree.walk, (p.scopeOf? n).isSome) ∧
      ∀ t, (prepare module).result = .ok t → Unshared (declareTypes t) →
        p.tree.Labelled ∧ (∀ n ∈ p.tree.walk, ∀ part ∈ n.parts, p.parent? part = some n) ∧
          p.parent? p.tree = none := by
  obtain ⟨t, p₁, p₂, table, p₃, ht, hfirst, hcheck, hsecond, rfl⟩ := passes_of_analyse h
  have hbare' := bare_prepare hbare ht
  have hmodule' := isModule_prepare hmodule ht
  have hcheckable := checkable_assignScopes hbare' hfirst
  refine ⟨fun n hn => ?_, fun t' ht' hunshared => ?_⟩
  · have hbelow := below_checkSafety hcheckable hcheck
    exact scoped_assignScopes (p := { p₂ with scopeTable := table }) hbelow hsecond n hn
  · obtain rfl : t = t' := Except.ok.inj (ht.symm.trans ht')
    obtain ⟨hnodup, hlt, hdeclarable⟩ := nodup_checkSafety hcheckable hmodule' hunshared hcheck
    have hknows : p₃.Knows p₃.tree := (knows_assignScopes
      (p := { p₂ with scopeTable := table }) hnodup hlt hdeclarable hsecond).1
    refine ⟨hknows.numbers.labelled, (fun n hn part hpart => ?_), ?_⟩
    · exact (hknows.links.holds n hn).2 part hpart
    · show (p₃.parentLabel? p₃.tree).bind p₃.node? = none
      rw [hknows.top]
      rfl

/-! ### Loops -/

/-- The module `for (x in container: unsafe(use(x: T)))`. -/
def loopOver (container : Node) : Node :=
  let use := ofCall (ident "use") [ofBinary .typed ":" (ident "x") (ident "T")]
  ofModule [ofCall (ident "for")
    [ofBinary .plain "in" (ident "x") container, ofBlock [ofCall (ident "unsafe") [use]]]]

theorem bare_loopOver {container : Node} (h : Bare container) : Bare (loopOver container) := by
  simpa [loopOver, ofModule, ofCall, ofBinary, ofBlock, ident, bare_make] using h

/-- The call `g(y)`, which is wrapped. -/
def untypedContainer : Node := ofCall (ident "g") [ident "y"]

/-- Wrapping a container without types shares nothing. -/
theorem tree_invariant_untypedContainer : ∃ p t, Bare (loopOver untypedContainer) ∧
    (loopOver untypedContainer).isModule = true ∧
    (analyse (loopOver untypedContainer)).result = .ok p ∧
      (prepare (loopOver untypedContainer)).result = .ok t ∧ Unshared (declareTypes t) ∧
        (∀ n ∈ p.tree.walk, (p.scopeOf? n).isSome) ∧ p.tree.Labelled ∧
          (∀ n ∈ p.tree.walk, ∀ part ∈ n.parts, p.parent? part = some n) ∧
            p.parent? p.tree = none := by
  have hbare : Bare (loopOver untypedContainer) := by
    refine bare_loopOver ?_
    simp [untypedContainer, ofCall, ident, bare_make]
  have hanalysed : (analyse (loopOver untypedContainer)).result.toOption.map (fun _ => ()) = some () := by
    decide +kernel
  have hprepared : (prepare (loopOver untypedContainer)).result.toOption.map
      (fun t => (declareTypes t).any isSharing) = some false := by
    decide +kernel
  obtain ⟨p, hp, -⟩ := Failing.exists_of_toOption hanalysed
  obtain ⟨t, ht, hunshared⟩ := Failing.exists_of_toOption hprepared
  obtain ⟨hscopes, htree⟩ := tree_invariant hbare rfl hp
  exact ⟨p, t, hbare, rfl, hp, ht, hunshared, hscopes, htree t ht hunshared⟩

/-- The call `g(y: T)`, whose copy has the type `T` as well. -/
def typedContainer : Node := ofCall (ident "g") [ofBinary .typed ":" (ident "y") (ident "T")]

/-- The type of a name in a wrapped container stands at two places. -/
theorem not_labelled_typedContainer : ∃ p, Bare (loopOver typedContainer) ∧
    (loopOver typedContainer).isModule = true ∧
      (analyse (loopOver typedContainer)).result = .ok p ∧ ¬p.tree.Labelled := by
  have hbare : Bare (loopOver typedContainer) := by
    refine bare_loopOver ?_
    simp [typedContainer, ofCall, ofBinary, ident, bare_make]
  have hanalysed : (analyse (loopOver typedContainer)).result.toOption.map
      (fun p => decide (p.tree.walk.map Node.id).Nodup) = some false := by
    decide +kernel
  obtain ⟨p, hp, hshared⟩ := Failing.exists_of_toOption hanalysed
  have hnodup : ¬(p.tree.walk.map Node.id).Nodup := of_decide_eq_false hshared
  exact ⟨p, hbare, rfl, hp, hnodup⟩

end Analyse

end Cppward.Analysis
