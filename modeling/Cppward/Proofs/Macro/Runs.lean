import Cppward.Proofs.Macro.Binding

namespace Cppward.Macro

open List Node

/-!
# Runs of arguments

A parameter may stand for a run of arguments.  If it is the only argument of a pattern, it should stand
for all arguments of the node, however many there are.  Two things get in the way: a node without any
parts is compared by its text, and the name of the parameter itself is always taken into the run.

* `matchNode_run`, `matchNode_run_bare` — the result of a match with a single run.
* `standsForAll_iff` — when the run stands for all arguments; `not_standsForAll` shows both exceptions.
-/

variable {params : Parameters} {x : String} {d : Node}

/-- The kinds of nodes that have a list of arguments. -/
def takesArguments : Kind → Bool
  | .call _ | .index | .bracedCall | .template | .list | .tuple | .braces | .block => true
  | _ => false

/-- The run `x` stands for all arguments of the node: the pattern matches exactly if all arguments are
    of the class of the run, and then the run is bound to their list. -/
def StandsForAll (params : Parameters) (p n : Node) (x cls : String) : Prop :=
  ((∃ m, matchNode params p n = .ok (some m)) ↔ ∀ a ∈ n.args, IsOfClass cls a) ∧
    ∀ m, matchNode params p n = .ok (some m) → m.lookup x = some (Node.make .list none n.args)

section Runs

variable {p n q cls type : Node} {name : String} {bs : Bindings}

theorem isIdent_eq_false (h : takesArguments p.kind = true) : p.isIdent = false := by
  obtain ⟨info, kind, func, args, type⟩ := p
  cases kind <;> first | rfl | cases h

theorem isBinary_eq_false (h : takesArguments p.kind = true) : p.isBinary = false := by
  obtain ⟨info, kind, func, args, type⟩ := p
  cases kind <;> first | rfl | cases h

/-- A run takes all arguments. -/
theorem matchNode_run (hkind : takesArguments p.kind = true) (hargs : p.args = [q])
    (hrun : variadic? params q = .ok (some (x, x, cls))) (hclass : n.kind.sameClass p.kind = true)
    (hfunc : p.func = none ∧ n.func = none ∧ bs = [] ∨
      ∃ f g, p.func = some f ∧ n.func = some g ∧ matchNode params f g = .ok (some bs))
    (hparts : ¬(n.func = none ∧ n.args = [])) :
    matchNode params p n = .ok
      (if n.args.all (runFits x cls) then some (bs.set x (make .list none n.args)) else none) := by
  have hmatch : matchArgs params false (operandsOf params p.args) n.args bs = .ok
      (if n.args.all (runFits x cls) then some (bs.set x (make .list none n.args)) else none) := by
    rw [hargs, matchArgs_run hrun, operandsOf, map_nil, matchArgs]
    by_cases hall : ∀ a ∈ n.args, runFits x cls a = true
    · rw [dropWhile_eq_nil_iff.mpr hall, takeWhile_eq_self_iff.mpr hall,
        if_pos (all_eq_true.mpr hall)]
      rfl
    · have hrest : (n.args.dropWhile (runFits x cls)).isEmpty = false := by
        rw [isEmpty_eq_false_iff]
        exact fun h => hall (dropWhile_eq_nil_iff.mp h)
      rw [hrest, if_neg (by simp), if_neg fun h => hall (all_eq_true.mp h)]
  rw [matchNode_eq_matchParts (isIdent_eq_false hkind) (isBinary_eq_false hkind)]
  unfold matchParts
  rcases hfunc with ⟨hpf, hnf, rfl⟩ | ⟨f, g, hpf, hng, hfg⟩
  · have hne : n.args.isEmpty = false := by simpa [hnf] using hparts
    simpa [hclass, hpf, hnf, hne] using hmatch
  · simpa [hclass, hpf, hng, matchFunc, hfg, bind, Except.bind] using hmatch

/-- A node without parts is compared by its text, in which the run shows. -/
theorem matchNode_run_bare (hkind : takesArguments p.kind = true) (hp : p.wellFormed = true)
    (hn : n.wellFormed = true) (hargs : p.args = [q]) (hclass : n.kind.sameClass p.kind = true)
    (hpf : p.func = none) (hnf : n.func = none) (hnargs : n.args = []) :
    matchNode params p n = .ok none := by
  have htext : n.text ≠ p.text := by
    intro htext
    have hsame : p.kind.className = n.kind.className := (beq_iff_eq.mp hclass).symm
    have halike := alike_of_text_eq hp hn hsame hpf hnf hnargs htext.symm
    obtain ⟨-, -, hlist⟩ := (alike_iff p n).mp halike
    rw [hnargs, alikeList_iff, forall₂_nil_right_iff, hargs] at hlist
    cases hlist
  rw [matchNode_eq_matchParts (isIdent_eq_false hkind) (isBinary_eq_false hkind)]
  simp [matchParts, hclass, hpf, hnf, hnargs, htext, pure, Except.pure]

/-- **When a run stands for all arguments.**  Let the only argument of a pattern be a run, and let a
    node be of the same class and what it applies be matched.  The run stands for all arguments of the
    node, none included, if the node applies something or has an argument, and if not the name of the
    run alone keeps the arguments from being of its class; and only then. -/
theorem standsForAll_iff (hkind : takesArguments p.kind = true) (hp : p.wellFormed = true)
    (hn : n.wellFormed = true) (hargs : p.args = [q]) (hq : q.kind = .name x)
    (hd : params.lookup x = some d) (hname : d.lhsName? = some x)
    (htype : declaredClass? d = some type) (hlist : type.isList = true) (helement : type.args = [cls])
    (hcls : cls.kind = .name name) (hclass : n.kind.sameClass p.kind = true)
    (hfunc : p.func = none ∧ n.func = none ∧ bs = [] ∨
      ∃ f g, p.func = some f ∧ n.func = some g ∧ matchNode params f g = .ok (some bs)) :
    StandsForAll params p n x name ↔ ¬(n.func = none ∧ n.args = []) ∧
      ((∀ a ∈ n.args, IsOfClass name a) ∨
        ∃ a ∈ n.args, ¬IsOfClass name a ∧ a.isNamed x = false) := by
  by_cases hparts : n.func = none ∧ n.args = []
  · -- all of no arguments are of the class, but there is no match
    obtain ⟨hnf, hnargs⟩ := hparts
    have hpf : p.func = none := by
      rcases hfunc with ⟨hpf, -, -⟩ | ⟨f, g, -, hng, -⟩
      · exact hpf
      · rw [hnf] at hng
        cases hng
    have hnone : matchNode params p n = .ok none :=
      matchNode_run_bare hkind hp hn hargs hclass hpf hnf hnargs
    refine iff_of_false (fun h => ?_) fun h => h.1 ⟨hnf, hnargs⟩
    obtain ⟨m, hm⟩ := h.1.mpr (by simp [hnargs])
    rw [hnone] at hm
    cases hm
  · have hrun := variadic?_eq_some hq hd hname htype hlist helement hcls
    have hresult := matchNode_run hkind hargs hrun hclass hfunc hparts
    have hfits : n.args.all (runFits x cls) = true ↔
        ∀ a ∈ n.args, IsOfClass name a ∨ a.isNamed x = true := by
      rw [List.all_eq_true]
      exact forall₂_congr fun a _ => runFits_iff hcls
    have hlookup : ∀ m, matchNode params p n = .ok (some m) →
        m.lookup x = some (Node.make .list none n.args) := by
      intro m hm
      rw [hresult] at hm
      split at hm
      · cases hm
        rw [Bindings.lookup_set, if_pos rfl]
      · cases hm
    have hsucceeds : (∃ m, matchNode params p n = .ok (some m)) ↔
        ∀ a ∈ n.args, IsOfClass name a ∨ a.isNamed x = true := by
      rw [← hfits, hresult]
      split
      · rename_i hall
        exact iff_of_true ⟨_, rfl⟩ hall
      · rename_i hall
        refine iff_of_false (fun ⟨m, hm⟩ => ?_) hall
        cases hm
    rw [StandsForAll, hsucceeds, and_iff_left hlookup, and_iff_right hparts]
    constructor
    · intro h
      by_cases hall : ∀ a ∈ n.args, IsOfClass name a
      · exact .inl hall
      · refine .inr ?_
        by_contra hnone
        refine hall (h.mp fun a ha => ?_)
        by_contra hor
        obtain ⟨hclass', hnamed⟩ := not_or.mp hor
        exact hnone ⟨a, ha, hclass', by simpa using hnamed⟩
    · rintro (hall | ⟨a, ha, hclass', hnamed⟩)
      · exact iff_of_true (fun a ha => .inl (hall a ha)) hall
      · refine iff_of_false (fun h => ?_) fun h => hclass' (h a ha)
        rcases h a ha with h | h
        · exact hclass' h
        · rw [hnamed] at h
          cases h

end Runs

/-- The run `xs: [Node]` of the pattern `f(xs)` stands for the three arguments of `f(a, xs, g())`, one of
    which has the name of the run. -/
theorem standsForAll_call :
    let params := [("xs", typedParameter "xs" (Node.make .list none [Node.ident "Node"]))]
    let call := Node.ofCall (Node.ident "f")
      [Node.ident "a", Node.ident "xs", Node.ofCall (Node.ident "g") []]
    StandsForAll params (Node.ofCall (Node.ident "f") [Node.ident "xs"]) call "xs" "Node" := by
  intro params call
  refine (standsForAll_iff rfl (by decide) (by decide) rfl rfl rfl rfl rfl rfl rfl rfl rfl
    (.inr ⟨_, _, rfl, rfl, rfl⟩)).mpr ⟨?_, .inl ?_⟩
  · rintro ⟨hfunc, -⟩
    cases hfunc
  · have hadmits : ∀ a ∈ call.args, admits "Node" a = true := by decide
    exact fun a ha => isOfClass_of_admits (hadmits a ha)

/-- The pattern `[xs]` with the run `xs: [Node]` does not match the empty list, of which all elements
    are nodes; and `f(xs)` with a run of numbers matches a call whose argument is a name. -/
theorem not_standsForAll :
    let nodes := [("xs", typedParameter "xs" (Node.make .list none [Node.ident "Node"]))]
    let numbers := [("xs", typedParameter "xs" (Node.make .list none [Node.ident "IntegerLiteral"]))]
    let call := Node.ofCall (Node.ident "f") [Node.ident "xs"]
    ¬StandsForAll nodes (Node.make .list none [Node.ident "xs"]) (Node.make .list none []) "xs" "Node" ∧
      ¬StandsForAll numbers call call "xs" "IntegerLiteral" := by
  refine ⟨fun h => ?_, fun h => ?_⟩
  · obtain ⟨m, hm⟩ := h.1.mpr (by simp [Node.make])
    cases hm
  · have hclass := h.1.mp ⟨_, rfl⟩ (Node.ident "xs") (List.mem_singleton_self _)
    exact absurd (admits_of_isOfClass hclass) (by decide)

end Cppward.Macro
