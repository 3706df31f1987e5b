import Cppward.Proofs.Macro.Meaning
import Cppward.Proofs.Source.Sketch

namespace Cppward

open Grammar Source List Node
open Option (toList_none isSome_map map_eq_some_iff mem_toList)

/-!
# Unquoted parts

The unquoted parts of a quoted tree are taken out, and fresh names are put in their place.  After the
tree has been written as an expression, the names are replaced by code.

* `Node.Shaped`, `Node.bare` — the trees that are worked on, and what is seen of them.
* `value_tree_sketch` — the value of a constructor expression with free names.
* `Stands`, `gives_takeUnquotes` — what is left when the unquoted parts are taken out.
* `value_replaceName` — a name that is replaced has the value of what takes its place.
-/

variable {func type : Option Node} {args : List Node} {info : Info} {kind : Kind} {word : String}
  {fault : Analysis.Fault} {new : Node}

/-! ### Trees as they are written -/

namespace Node

/-- Every node has the parts that the grammar gives nodes of its kind, and no declared type.  Offsets
    and labels are left open. -/
def Shaped (n : Node) : Prop :=
  ∀ m ∈ n.walk, m.kind.Fits m.func.isSome m.args.length ∧ m.type = none

variable {n m : Node}

theorem Shaped.of_mem_walk (h : n.Shaped) (hm : m ∈ n.walk) : m.Shaped :=
  fun c hc => h c (mem_walk_trans hm hc)

theorem shaped_of_children (hself : n.kind.Fits n.func.isSome n.args.length ∧ n.type = none)
    (h : ∀ m ∈ n.children, m.Shaped) : n.Shaped := by
  intro c hc
  rw [walk_eq] at hc
  rcases mem_cons.mp hc with rfl | hc
  · exact hself
  · obtain ⟨m, hm, hc⟩ := mem_flatMap.mp hc
    rw [parts, hself.2, toList_none, append_nil] at hm
    exact h m hm c hc

theorem Grammatical.shaped (h : n.Grammatical) : n.Shaped := by
  intro m hm
  cases h.of_mem_walk hm with
  | make hkind _ _ => exact ⟨hkind, rfl⟩

mutual
/-- The tree without offsets, labels and declared types. -/
def bare : Node → Node
  | ⟨_, kind, func, args, _⟩ => make kind (bareOption func) (bareList args)

def bareOption : Option Node → Option Node
  | none => none
  | some n => some n.bare

def bareList : List Node → List Node
  | [] => []
  | n :: ns => n.bare :: bareList ns
end

theorem bare_eq (n : Node) : n.bare = make n.kind (n.func.map bare) (n.args.map bare) := by
  have hlist : ∀ ns, bareList ns = ns.map bare :=
    eq_map rfl fun _ _ => rfl
  have hoption : ∀ o, bareOption o = o.map bare := by
    intro o
    cases o <;> rfl
  obtain ⟨info, kind, func, args, type⟩ := n
  rw [bare, hlist, hoption]

theorem Shaped.grammatical_bare (h : n.Shaped) : n.bare.Grammatical := by
  induction n using children_induction with
  | step n ih =>
    have ih : ∀ m ∈ n.children, m.bare.Grammatical := fun m hm =>
      ih m hm (h.of_mem_walk (mem_walk_of_mem_parts (child_mem_parts hm) m.self_mem_walk))
    rw [bare_eq]
    refine .make ?_ (fun f hf => ?_) fun a ha => ?_
    · rw [isSome_map, length_map]
      exact (h n n.self_mem_walk).1
    · obtain ⟨m, hm, rfl⟩ := map_eq_some_iff.mp hf
      exact ih m (mem_append_left _ (mem_toList.mpr hm))
    · obtain ⟨m, hm, rfl⟩ := mem_map.mp ha
      exact ih m (mem_append_right _ hm)

/-- The constructor expression shows neither offsets nor labels. -/
theorem constructorText_bare (n : Node) :
    n.bare.constructorText Style.program = n.constructorText Style.program := by
  induction n using children_induction with
  | step n ih =>
    have hfunc : constructorOption Style.program (n.func.map bare) =
        constructorOption Style.program n.func := by
      cases hf : n.func with
      | none => rfl
      | some f =>
        have hmem : f ∈ n.children := mem_append_left _ (mem_toList.mpr hf)
        rw [Option.map_some, constructorOption, constructorOption, ih f hmem]
    have hargs : constructorTexts Style.program (n.args.map bare) =
        constructorTexts Style.program n.args := by
      rw [constructorTexts_eq, constructorTexts_eq, map_map]
      exact map_congr_left fun a ha => ih a (mem_append_right _ ha)
    have hoffset (loc : Nat) : Style.program.offset loc = "" := rfl
    have hname (t : String) (loc : Nat) : Style.program.name t loc = Style.program.name t 0 := rfl
    rw [bare_eq]
    obtain ⟨info, kind, func, args, type⟩ := n
    cases kind <;> simp only [make, constructorText, hfunc, hargs, hoffset]
    exact (hname _ _).symm

theorem exists_of_mem_walk_bare (hm : m ∈ n.bare.walk) : ∃ c ∈ n.walk, m.kind = c.kind := by
  induction n using children_induction with
  | step n ih =>
    rw [walk_eq] at hm
    rcases mem_cons.mp hm with rfl | hm
    · exact ⟨n, n.self_mem_walk, by rw [bare_eq]; rfl⟩
    · obtain ⟨part, hpart, hm⟩ := mem_flatMap.mp hm
      have hchild : ∃ c ∈ n.children, part = c.bare := by
        rw [bare_eq, parts, make, toList_none, append_nil, mem_append,
          mem_toList] at hpart
        rcases hpart with hpart | hpart
        · obtain ⟨c, hc, rfl⟩ := map_eq_some_iff.mp hpart
          exact ⟨c, mem_append_left _ (mem_toList.mpr hc), rfl⟩
        · obtain ⟨c, hc, rfl⟩ := mem_map.mp hpart
          exact ⟨c, mem_append_right _ hc, rfl⟩
      obtain ⟨c, hc, rfl⟩ := hchild
      obtain ⟨d, hd, hkind⟩ := ih c hc hm
      exact ⟨d, mem_walk_of_mem_parts (child_mem_parts hc) hd, hkind⟩

end Node

/-! ### The value of an expression with free names -/

namespace Macro

open Evaluator

namespace Evaluator

variable {V : Type} (E : Evaluator V)

/-- The evaluator of the trees that code builds. -/
def builder : Evaluator V where
  node := E.build

/-- The value of a constructor call is made from those of its arguments. -/
theorem value_outlineArgs {func args : List Outline} {o : Option V} {vs : List V} (kind : Kind)
    (hfunc : func.map (fun f => E.value (f.tree id)) = o.toList)
    (hargs : args.map (fun f => E.value (f.tree id)) = vs) :
    (kind.outlineArgs func args).map (fun f => E.value (f.tree id)) =
      E.constructorArgs o vs kind := by
  have hlist : ∀ comma, E.value ((Outline.list args comma).tree id) = E.list vs := by
    intro comma
    have hitems : E.valueList (Outline.treeList id args) = vs := by
      rw [valueList_eq, Outline.treeList_eq, map_map]
      exact hargs
    rw [← hitems]
    rfl
  have htext : ∀ t, E.value ((Outline.text t).tree id) = E.text t := fun _ => rfl
  have haffix : ∀ a, E.value ((affixOutline a).tree id) = E.affix a := by
    intro a
    cases a <;> rfl
  cases kind with
  | name t => rfl
  | int digits tail | float digits tail =>
    simp only [Kind.outlineArgs, constructorArgs, map_cons, map_nil, htext, haffix]
  | str t lead tail =>
    simp only [Kind.outlineArgs, constructorArgs, map_cons, map_nil, htext, haffix]
  | unary op | trailing op | binary cls op =>
    simp only [Kind.outlineArgs, constructorArgs, map_cons, map_nil, htext, hlist]
  | _ =>
    simp only [Kind.outlineArgs, constructorArgs, map_append, map_cons, map_nil,
      hfunc, hlist]

/-- **The value of a constructor expression with free names** is that of the tree which it builds,
    where the free names have values. -/
theorem value_tree_sketch {ρ : String → Option V} {free : List Nat} (hρ : Spares ρ) {n : Node}
    (hfree : ∀ k ∈ free, ρ (freshName k) ≠ none)
    (hname : ∀ s ∈ n.nameTexts, ρ s ≠ none → ∃ k ∈ free, s = freshName k) :
    (E.within ρ).value ((n.sketch free).tree id) = (E.builder.within ρ).value n := by
  induction n using children_induction with
  | step n ih =>
    cases hnumber : freeNumber? free n.kind with
    | some k =>
      obtain ⟨hkind, hk⟩ := eq_of_freeNumber? hnumber
      obtain ⟨x, hx⟩ := Option.ne_none_iff_exists'.mp (hfree k hk)
      rw [sketch_of_free hnumber,
        E.value_within_of_name (n := (Outline.free k).tree id) (beq_self_eq_true _) hx,
        E.builder.value_within_of_name (by rw [isNamed, Node.name?, hkind, beq_self_eq_true]) hx]
    | none =>
      have ih := map_children_congr fun m hm => ih m hm fun s hs =>
        hname s (nameTexts_of_child hm hs)
      have hself : ∀ s, n.kind = .name s → ρ s = none := by
        intro s hs
        by_contra hne
        obtain ⟨k, hk, rfl⟩ := hname s (nameTexts_self (by simp [hs, Kind.nameTexts])) hne
        rw [hs, freeNumber?, find?_eq_none] at hnumber
        exact hnumber k hk (beq_self_eq_true _)
      have hfunc : (n.func.toList.map (sketch free)).map
          (fun f => (E.within ρ).value (f.tree id)) = (n.func.map (E.builder.within ρ).value).toList := by
        rw [← ih.1]
        cases n.func <;> rfl
      have hargs : (n.args.map (sketch free)).map (fun f => (E.within ρ).value (f.tree id)) =
          n.args.map (E.builder.within ρ).value := by
        rw [map_map]
        exact ih.2
      have hcall := (E.within ρ).value_outlineArgs n.kind hfunc hargs
      rw [sketch_of_not hnumber, value_eq (E.builder.within ρ), E.builder.node_within hself]
      change (E.within ρ).call n.kind.className ((E.within ρ).valueList (Outline.treeList id _)) = _
      rw [valueList_eq, Outline.treeList_eq, map_map]
      refine (congrArg ((E.within ρ).call n.kind.className) hcall).trans ?_
      exact E.build_within hρ n.kind _ _

end Evaluator

/-! ### Unquoted parts are taken out -/

open Naming
open Failing (exists_mem_of_forall₂)

/-- The names have the values of the parts that they stand for. -/
def Knows {V : Type} (E : Evaluator V) (taken : Unquoted) (ρ : String → Option V) : Prop :=
  ∀ p ∈ taken, ρ p.1 = some (E.expanded .code p.2)

/-- The names are fresh ones, with numbers between two others. -/
def Numbered (k k' : Nat) (taken : Unquoted) : Prop :=
  ∃ numbers : List Nat, taken.map (·.1) = numbers.map freshName ∧ numbers.Nodup ∧
    ∀ j ∈ numbers, k < j ∧ j ≤ k'

/-- The first tree is the second with names in place of unquoted parts, which are looked for at the
    root if `root` says so. -/
structure Stands (taken : Unquoted) (root : Bool) (n' n : Node) : Prop where
  value : ∀ {V : Type} (E : Evaluator V) (ρ : String → Option V), Knows E taken ρ →
    (∀ s ∈ n.nameTexts, ρ s = none) →
      (E.builder.within ρ).value n' = E.read false root .tree n
  shaped : n.Shaped → n'.Shaped
  kinds : ∀ m' ∈ n'.walk, (∃ m ∈ n.walk, m'.kind = m.kind) ∨ ∃ p ∈ taken, m'.kind = .name p.1

/-- What is known when the unquoted parts of some trees have been taken out. -/
structure Taken (ns : List Node) (k : Nat) (r : List Node × Unquoted) (k' : Nat) : Prop where
  numbered : Numbered k k' r.2
  contents : ∀ p ∈ r.2, ∃ n ∈ ns, p.2 ∈ n.walk
  stands : List.Forall₂ (Stands r.2 true) r.1 ns

section Taking

variable {n n' m : Node} {ns : List Node} {taken taken' : Unquoted} {root : Bool} {k k₁ k₂ : Nat}

theorem Numbered.append (h : Numbered k k₁ taken) (h' : Numbered k₁ k₂ taken') (hk : k ≤ k₁)
    (hk' : k₁ ≤ k₂) : Numbered k k₂ (taken ++ taken') := by
  obtain ⟨js, hjs, hnodup, hbound⟩ := h
  obtain ⟨js', hjs', hnodup', hbound'⟩ := h'
  refine ⟨js ++ js', by rw [map_append, map_append, hjs, hjs'], ?_, ?_⟩
  · refine hnodup.append hnodup' fun j hj hj' => ?_
    have := (hbound j hj).2
    have := (hbound' j hj').1
    omega
  · intro j hj
    rcases mem_append.mp hj with hj | hj
    · have := hbound j hj
      omega
    · have := hbound' j hj
      omega

theorem Stands.mono (h : Stands taken root n' n) (hsub : taken ⊆ taken') :
    Stands taken' root n' n where
  value E ρ hρ := h.value E ρ fun p hp => hρ p (hsub hp)
  shaped := h.shaped
  kinds m' hm' := (h.kinds m' hm').imp_right fun ⟨p, hp, hkind⟩ => ⟨p, hsub hp, hkind⟩

theorem Taken.append {ns' : List Node} {r r' : List Node × Unquoted} (h : Taken ns k r k₁)
    (h' : Taken ns' k₁ r' k₂) (hk : k ≤ k₁) (hk' : k₁ ≤ k₂) :
    Taken (ns ++ ns') k (r.1 ++ r'.1, r.2 ++ r'.2) k₂ where
  numbered := h.numbered.append h'.numbered hk hk'
  contents := by
    intro p hp
    rcases mem_append.mp hp with hp | hp
    · obtain ⟨n, hn, hmem⟩ := h.contents p hp
      exact ⟨n, mem_append_left _ hn, hmem⟩
    · obtain ⟨n, hn, hmem⟩ := h'.contents p hp
      exact ⟨n, mem_append_right _ hn, hmem⟩
  stands := rel_append
    (h.stands.imp fun _ _ hs => hs.mono (subset_append_left ..))
    (h'.stands.imp fun _ _ hs => hs.mono (subset_append_right ..))

/-- A node whose parts stand for those of another one stands for it, unless it is unquoted. -/
theorem Stands.node {func' : Option Node} {args' : List Node}
    (hcall : (root && isCallOf ⟨info, kind, func, args, type⟩ "unquote") = false)
    (hfunc : List.Forall₂ (Stands taken true) func'.toList func.toList)
    (hargs : List.Forall₂ (Stands taken true) args' args) :
    Stands taken root ⟨info, kind, func', args', type⟩ ⟨info, kind, func, args, type⟩ := by
  have hchildren : List.Forall₂ (fun m m' => Stands taken true m' m) (func.toList ++ args)
      (func'.toList ++ args') := (rel_append hfunc hargs).flip
  constructor
  case value =>
    intro V E ρ hρ hn
    have hn' : ∀ m ∈ func.toList ++ args, ∀ s ∈ m.nameTexts, ρ s = none :=
      fun m hm s hs => hn s (nameTexts_of_child hm hs)
    have hself : ∀ s, kind = .name s → ρ s = none :=
      fun s hs => hn s (nameTexts_self (by simp [hs, Kind.nameTexts]))
    have hvalue : ∀ {ns ns' : List Node}, List.Forall₂ (Stands taken true) ns' ns →
        ns ⊆ func.toList ++ args → List.Forall₂ (fun m' m =>
          (E.builder.within ρ).value m' = E.read false true .tree m) ns' ns := by
      intro ns ns' h hsub
      induction h with
      | nil => exact .nil
      | cons hm _ ih =>
        obtain ⟨hmem, hns⟩ := cons_subset.mp hsub
        exact .cons (hm.value E ρ hρ (hn' _ hmem)) (ih hns)
    rw [E.read_of_not hcall, value_eq, E.builder.node_within hself,
      map_option_eq_of_forall₂ (hvalue hfunc (subset_append_left ..)),
      map_eq_of_forall₂ (hvalue hargs (subset_append_right ..))]
    rfl
  case shaped =>
    intro h
    have hlength : func'.isSome = func.isSome := by
      have := hfunc.length_eq
      cases func <;> cases func' <;> simp_all
    refine shaped_of_children ?_ fun m' hm' => ?_
    · rw [hlength, hargs.length_eq]
      exact h _ (self_mem_walk _)
    · obtain ⟨m, hm, hs⟩ := exists_mem_of_forall₂ hchildren hm'
      exact hs.shaped (h.of_mem_walk
        (child_mem_walk hm))
  case kinds =>
    intro m' hm'
    rw [walk_eq] at hm'
    rcases mem_cons.mp hm' with rfl | hm'
    · exact .inl ⟨_, self_mem_walk _, rfl⟩
    · obtain ⟨part, hpart, hm'⟩ := mem_flatMap.mp hm'
      rcases mem_append.mp hpart with hpart | hpart
      · obtain ⟨m, hm, hs⟩ := exists_mem_of_forall₂ hchildren hpart
        refine (hs.kinds m' hm').imp_left fun hkinds => ?_
        obtain ⟨c, hc, hkind⟩ := hkinds
        exact ⟨c, mem_walk_of_mem_parts (child_mem_parts hm) hc, hkind⟩
      · exact .inl ⟨m', mem_walk_of_mem_parts (mem_append_right _ hpart) hm', rfl⟩

theorem Stands.ident {j : Nat} (hcall : n.isCallOf "unquote" = true) (hargs : n.args = [m]) :
    Stands [(freshName j, m)] true (Node.ident (freshName j)) n := by
  have hwalk : (Node.ident (freshName j)).walk = [Node.ident (freshName j)] := rfl
  constructor
  case value =>
    intro V E ρ hρ _
    have hm := hρ (freshName j, m) (mem_singleton_self _)
    have hread : E.read false true .tree n = E.expanded .code m := E.read_of_call rfl hcall hargs
    rw [hread]
    exact E.builder.value_within_of_name (beq_self_eq_true _) hm
  case shaped =>
    intro _
    refine shaped_of_children ⟨⟨?_, rfl, rfl⟩, rfl⟩ (by simp [children, Node.ident, Node.make])
    intro c hc
    rw [isNameChar_of_mem_freshName hc, Bool.true_or]
  case kinds =>
    intro m' hm'
    rw [hwalk, mem_singleton] at hm'
    exact .inr ⟨_, mem_singleton_self _, by rw [hm']; rfl⟩

theorem quotedPart_of_call (hcall : n.isCallOf word = true) (hargs : n.args = [m]) :
    quotedPart word fault n = .ok (some m) := by
  rw [quotedPart, if_pos hcall, hargs]

theorem quotedPart_of_not
    (hcall : n.isCallOf word = false) : quotedPart word fault n = .ok none := by
  rw [quotedPart, hcall, if_neg Bool.false_ne_true]

theorem gives_takeFromList
    (h : ∀ n ∈ ns, ∀ k, Gives (takePart n) k fun r k' => Taken [n] k ([r.1], r.2) k') (k : Nat) :
    Gives (takeFromList ns) k (Taken ns k) := by
  induction ns generalizing k with
  | nil =>
    rw [takeFromList]
    exact .pure ⟨⟨[], rfl, .nil, nofun⟩, nofun, .nil⟩
  | cons n ns ih =>
    obtain ⟨hn, hns⟩ := forall_mem_cons.mp h
    rw [takeFromList]
    refine (hn k).bind fun r k₁ hk hr => ?_
    refine (ih hns k₁).bind fun r' k₂ hk' hr' => ?_
    exact .pure (hr.append hr' hk hk')

theorem gives_takeFromOption {o : Option Node}
    (h : ∀ n ∈ o, ∀ k, Gives (takePart n) k fun r k' => Taken [n] k ([r.1], r.2) k') (k : Nat) :
    Gives (takeFromOption o) k fun r k' => Taken o.toList k (r.1.toList, r.2) k' := by
  cases o with
  | none =>
    rw [takeFromOption]
    exact .pure ⟨⟨[], rfl, .nil, nofun⟩, nofun, .nil⟩
  | some n =>
    rw [takeFromOption]
    exact (h n rfl k).bind fun r k₁ _ hr => .pure hr

/-- The parts of a node are taken out of its arguments and then out of what it applies. -/
theorem gives_takeFromParts
    (hcall : (root && isCallOf ⟨info, kind, func, args, type⟩ "unquote") = false)
    (h : ∀ m ∈ children ⟨info, kind, func, args, type⟩, ∀ k,
      Gives (takePart m) k fun r k' => Taken [m] k ([r.1], r.2) k') (k : Nat) :
    Gives (do
      let (args, fromArgs) ← takeFromList args
      let (func, fromFunc) ← takeFromOption func
      return (⟨info, kind, func, args, type⟩, fromArgs ++ fromFunc)) k
      fun r k' => Numbered k k' r.2 ∧
        (∀ p ∈ r.2, p.2 ∈ walk ⟨info, kind, func, args, type⟩) ∧
        Stands r.2 root r.1 ⟨info, kind, func, args, type⟩ ∧ r.1.kind = kind := by
  have hargs := gives_takeFromList fun m hm => h m (mem_append_right _ hm)
  have hfunc := gives_takeFromOption fun m hm =>
    h m (mem_append_left _ (mem_toList.mpr hm))
  refine (hargs k).bind fun r k₁ hk hr => ?_
  refine (hfunc k₁).bind fun r' k₂ hk' hr' => .pure ?_
  have hall := hr.append hr' hk hk'
  refine ⟨hall.numbered, fun p hp => ?_, ?_, rfl⟩
  · obtain ⟨m, hm, hmem⟩ := hall.contents p hp
    refine mem_walk_of_mem_parts (child_mem_parts ?_) hmem
    exact mem_append.mpr (mem_append.mp hm).symm
  · exact Stands.node hcall
      (hr'.stands.imp fun _ _ hs => hs.mono (subset_append_right ..))
      (hr.stands.imp fun _ _ hs => hs.mono (subset_append_left ..))

/-- A part is taken as one hole or with the holes in it. -/
theorem gives_takePart (hn : Apt n) (k : Nat) :
    Gives (takePart n) k fun r k' => Taken [n] k ([r.1], r.2) k' := by
  induction n using children_induction generalizing k with
  | step n ih =>
    have ih : ∀ m ∈ n.children, ∀ k,
        Gives (takePart m) k fun r k' => Taken [m] k ([r.1], r.2) k' :=
      fun m hm => ih m hm (hn.of_mem hm)
    obtain ⟨info, kind, func, args, type⟩ := n
    rw [takePart]
    cases hcall : isCallOf ⟨info, kind, func, args, type⟩ "unquote" with
    | true =>
      obtain ⟨m, hargs⟩ := hn.self .tree hcall
      refine gives_lift_bind (quotedPart_of_call hcall hargs) (gives_fresh.bind ?_)
      rintro _ _ - ⟨rfl, rfl⟩
      refine .pure ⟨⟨[k + 1], rfl, nodup_singleton _, by simp⟩, ?_, ?_⟩
      · have hm : m ∈ children ⟨info, kind, func, args, type⟩ :=
          mem_append_right _ (hargs ▸ mem_singleton_self m)
        intro p hp
        obtain rfl := mem_singleton.mp hp
        exact ⟨_, mem_singleton_self _,
          mem_walk_of_mem_parts (child_mem_parts hm) m.self_mem_walk⟩
      · exact .cons (Stands.ident hcall hargs) .nil
    | false =>
      refine gives_lift_bind (quotedPart_of_not hcall) ?_
      have hcall : (true && isCallOf ⟨info, kind, func, args, type⟩ "unquote") = false := hcall
      refine (gives_takeFromParts hcall ih k).mono ?_
      rintro r k' _ ⟨hnumbered, hcontents, hstands, -⟩
      exact ⟨hnumbered, fun p hp => ⟨_, mem_singleton_self _, hcontents p hp⟩, .cons hstands .nil⟩

/-- **The unquoted parts below a tree are taken out.** -/
theorem gives_takeUnquotes (hn : Apt n) (k : Nat) :
    Gives (takeUnquotes n) k fun r k' => Numbered k k' r.2 ∧ (∀ p ∈ r.2, p.2 ∈ n.walk) ∧
      Stands r.2 false r.1 n ∧ r.1.kind = n.kind := by
  obtain ⟨info, kind, func, args, type⟩ := n
  rw [takeUnquotes]
  exact gives_takeFromParts (Bool.false_and _) (fun m hm => gives_takePart (hn.of_mem hm)) k

end Taking

/-! ### Names are replaced -/

/-- A part of a tree after a name is replaced. -/
def replacePart (name : String) (new n : Node) : Node :=
  if n.isNamed name then new else replaceName name new n

section Replacing

variable {n m : Node} {name : String}

theorem replaceName_eq (name : String) (new n : Node) : replaceName name new n =
    { n with
      func := n.func.map (replacePart name new)
      args := n.args.map (replacePart name new) } := by
  have hlist : ∀ ns, replaceNameList name new ns = ns.map (replacePart name new) := by
    intro ns
    induction ns with
    | nil => rfl
    | cons n ns ih =>
      rw [replaceNameList, ih]
      rfl
  have hoption : ∀ o, replaceNameOption name new o = o.map (replacePart name new) := by
    intro o
    cases o <;> rfl
  obtain ⟨info, kind, func, args, type⟩ := n
  rw [replaceName, hlist, hoption]

theorem shaped_replaceName (hn : n.Shaped) (hnew : new.Shaped) :
    (replaceName name new n).Shaped := by
  induction n using children_induction with
  | step n ih =>
    have ih : ∀ m ∈ n.children, (replacePart name new m).Shaped := by
      intro m hm
      rw [replacePart]
      split
      · exact hnew
      · exact ih m hm
          (hn.of_mem_walk (child_mem_walk hm))
    rw [replaceName_eq]
    refine shaped_of_children ?_ fun m hm => ?_
    · rw [isSome_map, length_map]
      exact hn n n.self_mem_walk
    · rcases mem_append.mp hm with hm | hm
      · obtain ⟨f, hf, rfl⟩ := map_eq_some_iff.mp (mem_toList.mp hm)
        exact ih f (mem_append_left _ (mem_toList.mpr hf))
      · obtain ⟨a, ha, rfl⟩ := mem_map.mp hm
        exact ih a (mem_append_right _ ha)

namespace Evaluator

variable {V : Type} (E : Evaluator V) {ρ : String → Option V}

theorem value_within_none (n : Node) : (E.within fun _ => none).value n = E.value n := by
  have hnode : (E.within fun _ => none).node = E.node := by
    funext kind func args
    exact E.node_within (fun _ _ => rfl) func args
  rw [show E.within (fun _ => none) = E from congrArg mk hnode]

/-- **A name that is replaced** by a tree has the value of this tree, below the root. -/
theorem value_replaceName {x : V} (hnew : (E.within ρ).value new = x)
    (hroot : n.isNamed name = false) : (E.within ρ).value (replaceName name new n) =
      (E.within (Function.update ρ name (some x))).value n := by
  induction n using children_induction with
  | step n ih =>
    have hpart : ∀ m ∈ n.children, (E.within ρ).value (replacePart name new m) =
        (E.within (Function.update ρ name (some x))).value m := by
      intro m hm
      rw [replacePart]
      cases hname : m.isNamed name with
      | true => rw [if_pos rfl, hnew, E.value_within_of_name hname (Function.update_self ..)]
      | false => rw [if_neg Bool.false_ne_true, ih m hm hname]
    have hparts := map_children_congr hpart
    have hnode : (E.within (Function.update ρ name (some x))).node n.kind =
        (E.within ρ).node n.kind := by
      rw [isNamed, Node.name?] at hroot
      cases hkind : n.kind with
      | name s =>
        rw [hkind, beq_eq_false_iff_ne] at hroot
        have hne : s ≠ name := fun h => hroot (congrArg some h)
        funext func args
        simp only [within, Function.update_of_ne hne]
      | _ => rfl
    rw [replaceName_eq, value_eq, value_eq, hnode, ← hparts.1, ← hparts.2, Option.map_map,
      map_map]
    rfl

theorem value_of_alike (h : n.alike (· == ·) m = true) : E.value n = E.value m := by
  induction n using children_induction generalizing m with
  | step n ih =>
    obtain ⟨hkind, hfunc, hargs⟩ := (alike_iff n m).mp h
    rw [alikeList_iff] at hfunc hargs
    have hmap : ∀ {ns ms : List Node}, List.Forall₂ (fun a b => a.alike (· == ·) b = true) ns ms →
        ns ⊆ n.children → ns.map E.value = ms.map E.value := by
      intro ns ms hall hsub
      induction hall with
      | nil => rfl
      | cons hab _ ihall =>
        obtain ⟨ha, hns⟩ := cons_subset.mp hsub
        rw [map_cons, map_cons, ih _ ha hab, ihall hns]
    have hfuncs : n.func.map E.value = m.func.map E.value := by
      have := hmap hfunc (subset_append_left ..)
      cases hn : n.func <;> cases hm : m.func <;> simp_all
    rw [value_eq, value_eq, beq_iff_eq.mp hkind, hfuncs, hmap hargs (subset_append_right ..)]

theorem value_bare (n : Node) : E.value n.bare = E.value n := by
  induction n using children_induction with
  | step n ih =>
    have hparts := map_children_congr (f := E.value ∘ bare) ih
    rw [bare_eq, value_eq, value_eq E n, ← hparts.1, ← hparts.2]
    simp only [Node.make, Option.map_map, map_map]

end Evaluator

end Replacing

end Macro

end Cppward
