import Cppward.Proofs.Macro.Soundness

namespace Cppward.Macro

open List Node

/-!
# Every instance of a pattern matches

A pattern with plain parameters matches whatever it is filled in to, and the match finds the nodes
that were filled in.  A parameter may stand in several places: the bindings of the places are the
same, so joining them loses nothing.

* `Admitted` — the nodes that a parameter may stand for, said without the matcher.
* `Bindings.restrict` — a substitution touches parameters only.
* `Admissible` — a substitution gives every parameter of a pattern a node that it admits.
* `boundIn` — what a match of a pattern has to bind; `boundIn_append` joins the parts of a pattern.
* `matchNode_fill` — the pattern matches its instance.
-/

variable {as : List String} {bs m found : Bindings} {n p : Node} {x : String} {ps : List Node}
variable {params : Parameters} {s : Bindings}

/-! ### Substitutions -/

/-- The node belongs to the class `name`, or to one that is derived from it. -/
inductive IsOfClass : String → Node → Prop
  | any (n : Node) : IsOfClass "Node" n
  | binary {n : Node} (h : n.isBinary = true) : IsOfClass "BinOp" n
  | unary {n : Node} (h : n.isUnary = true) : IsOfClass "UnOp" n
  | same (n : Node) : IsOfClass n.kind.className n

/-- A parameter with this declaration may stand for the node: any node, if no class is declared. -/
inductive Admitted (declaration n : Node) : Prop
  | untyped (h : declaration.isIdent = true)
  | typed {type : Node} {name : String} (htype : declaredClass? declaration = some type)
      (hname : type.kind = .name name) (h : IsOfClass name n)

/-- The part of a substitution that is about parameters. -/
def Bindings.restrict (params : Parameters) (s : Bindings) : Bindings :=
  s.filter fun b => (params.lookup b.1).isSome

theorem Bindings.lookup_restrict (params : Parameters) (s : Bindings) (x : String) :
    (s.restrict params).lookup x = if (params.lookup x).isSome then s.lookup x else none := by
  unfold restrict
  induction s with
  | nil => simp
  | cons b s ih =>
    obtain ⟨y, n⟩ := b
    by_cases hx : x = y
    · subst hx
      by_cases hb : (params.lookup x).isSome = true
      · simp [hb]
      · simp [hb, ih]
    · have hne : (x == y) = false := by simpa using hx
      by_cases hb : (params.lookup y).isSome = true
      · simp [hb, lookup_cons, hne, ih]
      · simp [hb, lookup_cons, hne, ih]

/-- Every parameter among the names is given a node that it may stand for. -/
def Admissible (params : Parameters) (s : Bindings) (names : List String) : Prop :=
  ∀ x ∈ names, ∀ declaration, params.lookup x = some declaration →
    ∃ n, s.lookup x = some n ∧ Admitted declaration n

theorem Admissible.mono {names names' : List String} (h : Admissible params s names')
    (hsub : names ⊆ names') : Admissible params s names :=
  fun x hx => h x (hsub hx)

/-! ### What a match has to bind -/

/-- What the substitution gives to the parameters among the names. -/
def boundIn (params : Parameters) (s : Bindings) (names : List String) (x : String) :
    Option Node :=
  if x ∈ names ∧ (params.lookup x).isSome then s.lookup x else none

theorem boundIn_nil (x : String) : boundIn params s [] x = none := by
  simp [boundIn]

/-- The bindings of two parts of a pattern are joined to those of the whole.  A parameter that stands
    in both parts has a node already, the one that it has in the second part. -/
theorem boundIn_append {bs : List String} (h : Admissible params s as) (x : String) :
    boundIn params s (as ++ bs) x = (boundIn params s as x).or (boundIn params s bs x) := by
  unfold boundIn
  by_cases hparam : (params.lookup x).isSome = true
  · by_cases ha : x ∈ as
    · obtain ⟨declaration, hdeclaration⟩ := Option.isSome_iff_exists.mp hparam
      obtain ⟨n, hn, -⟩ := h x ha declaration hdeclaration
      simp [ha, hparam, hn]
    · simp [ha, hparam]
  · simp [hparam]

/-- A union of bindings has every name once. -/
theorem Bindings.nodup_union (new : Bindings) (h : (bs.map Prod.fst).Nodup) :
    ((bs.union new).map Prod.fst).Nodup := by
  unfold union
  induction new generalizing bs with
  | nil => exact h
  | cons b new ih =>
    rw [foldl_cons]
    apply ih
    by_cases hb : (bs.lookup b.1).isSome = true
    · rw [if_pos hb]
      exact h
    · rw [if_neg hb]
      have hnew : b.1 ∉ bs.map Prod.fst := by
        intro hmem
        obtain ⟨c, hc, hcb⟩ := mem_map.mp hmem
        exact hb (lookup_isSome_iff.mpr ⟨c, hc, by simp [hcb]⟩)
      rw [map_append, nodup_append]
      refine ⟨h, by simp, ?_⟩
      intro x hx y hy
      simp only [map_cons, map_nil, mem_singleton] at hy
      subst hy
      exact fun hxy => hnew (hxy ▸ hx)

/-- The bindings are those that the substitution gives to the parameters among the names. -/
structure Finds (params : Parameters) (s : Bindings) (names : List String) (m : Bindings) :
    Prop where
  nodup : (m.map Prod.fst).Nodup
  lookup : ∀ x, m.lookup x = boundIn params s names x

theorem finds_nil : Finds params s [] [] :=
  ⟨nodup_nil, fun x => (boundIn_nil x).symm⟩

/-- Bindings of two parts of a pattern are joined to bindings of the whole. -/
theorem Finds.union {bs : List String} (hm : Finds params s as m)
    (hfound : Finds params s bs found) (has : Admissible params s as) :
    Finds params s (as ++ bs) (m.union found) := by
  refine ⟨Bindings.nodup_union found hm.nodup, fun x => ?_⟩
  rw [Bindings.lookup_union, hm.lookup, hfound.lookup, boundIn_append has]

/-! ### Names -/

/-- What a class allows is what the matcher allows. -/
theorem admits_of_isOfClass {name : String} (h : IsOfClass name n) : admits name n = true := by
  cases h with
  | any => simp [admits]
  | binary h => simp [admits, h]
  | unary h => simp [admits, h]
  | same => simp [admits]

theorem matchName_of_admitted {declaration : Node}
    (hlookup : params.lookup x = some declaration) (h : Admitted declaration n) :
    matchName params x n = some [(x, n)] := by
  unfold matchName
  rw [hlookup]
  cases h with
  | untyped hident => simp [hident]
  | @typed type name htype hname hclass =>
    -- a declaration with a class is a colon, so it is no name
    have hident : declaration.isIdent = false := by
      by_contra hident
      obtain ⟨t, ht⟩ := kind_of_isIdent (Bool.not_eq_false _ ▸ hident)
      simp [declaredClass?, isTyped, isClause, binary?, ht] at htype
    obtain ⟨info, kind, func, args, type'⟩ := type
    obtain rfl : kind = .name name := hname
    simp [hident, htype, wildcardTyped, admits_of_isOfClass hclass]

theorem matchName_self (hkind : p.kind = .name x)
    (hlookup : params.lookup x = none) : matchName params x p = some [] := by
  unfold matchName sameName
  simp [hlookup, isNamed, Node.name?, hkind]

theorem matchName_instance (hkind : p.kind = .name x) (hs : Admissible params s [x]) :
    ∃ m, matchName params x (p.fill (s.restrict params)) = some m ∧ Finds params s [x] m := by
  rw [fill_name hkind, Bindings.lookup_restrict]
  cases hlookup : params.lookup x with
  | none =>
    refine ⟨[], ?_, nodup_nil, fun y => ?_⟩
    · simpa using matchName_self hkind hlookup
    · unfold boundIn
      by_cases hy : y = x
      · simp [hy, hlookup]
      · simp [hy]
  | some declaration =>
    obtain ⟨n, hn, hadmitted⟩ := hs x (mem_singleton_self x) declaration hlookup
    refine ⟨[(x, n)], ?_, by simp, fun y => ?_⟩
    · simpa [hn] using matchName_of_admitted hlookup hadmitted
    · unfold boundIn
      by_cases hy : y = x
      · simp [hy, hlookup, hn]
      · simp [hy, lookup_cons, beq_false_of_ne hy]

/-! ### Nodes with parts -/

/-- The pattern matches what the substitution makes of it, and finds the nodes that were filled
    in. -/
def MatchesInstance (params : Parameters) (s : Bindings) (p : Node) : Prop :=
  ∃ m, matchNode params p (p.fill (s.restrict params)) = .ok (some m) ∧ Finds params s p.names m

theorem IsPlain.matchArgs_cons (h : IsPlain params) {a : Node} {as : List Node}
    (hpa : matchNode params p a = .ok (some found)) :
    matchArgs params false (operandsOf params (p :: ps)) (a :: as) bs =
      matchArgs params false (operandsOf params ps) as (bs.union found) := by
  simp only [operandsOf, map_cons, matchArgs, Bool.false_eq_true, if_false, h.variadic?, bind,
    Except.bind, hpa]

/-- Arguments that match their instances one by one match them as a list.  The induction is over the
    arguments, with the names before them and what those have bound. -/
theorem IsPlain.matchArgs_instance (h : IsPlain params) {before : List String}
    (hps : ∀ p ∈ ps, MatchesInstance params s p)
    (hs : Admissible params s (before ++ namesList ps)) (hbs : Finds params s before bs) :
    ∃ m, matchArgs params false (operandsOf params ps) (fillList (s.restrict params) ps) bs =
        .ok (some m) ∧ Finds params s (before ++ namesList ps) m := by
  induction ps generalizing before bs with
  | nil =>
    refine ⟨bs, rfl, ?_⟩
    simpa [namesList] using hbs
  | cons p ps ih =>
    obtain ⟨found, hfound, hfinds⟩ := hps p mem_cons_self
    have hbefore : Admissible params s before := hs.mono (subset_append_left ..)
    rw [namesList, ← append_assoc] at hs ⊢
    rw [fillList, h.matchArgs_cons hfound]
    exact ih (fun q hq => hps q (mem_cons_of_mem p hq)) hs (hbs.union hfinds hbefore)

/-- A node that is no name matches an instance of which the parts match. -/
theorem IsPlain.matchNode_parts (h : IsPlain params)
    (hp : p.isIdent = false) (hclass : n.kind = p.kind) (hsome : ¬(n.func = none ∧ n.args = []))
    (hfunc : p.func = none ∧ n.func = none ∧ bs = [] ∨
      ∃ f g, p.func = some f ∧ n.func = some g ∧ matchNode params f g = .ok (some bs))
    (hargs : matchArgs params false (operandsOf params p.args) n.args bs = .ok (some m)) :
    matchNode params p n = .ok (some m) := by
  rw [h.neverAbsent.matchNode_eq hp]
  unfold matchParts
  rcases hfunc with ⟨hpf, hnf, rfl⟩ | ⟨f, g, hpf, hng, hfg⟩
  · have hne : n.args.isEmpty = false := by simpa [hnf] using hsome
    simpa [hclass, Kind.sameClass, hpf, hnf, hne] using hargs
  · simpa [hclass, Kind.sameClass, hpf, hng, matchFunc, hfg, bind, Except.bind] using hargs

theorem IsPlain.matchNode_leaf (h : IsPlain params) (hp : p.isIdent = false)
    (hfunc : p.func = none) (hargs : p.args = []) : matchNode params p p = .ok (some []) := by
  rw [h.neverAbsent.matchNode_eq hp]
  unfold matchParts
  simp [hfunc, hargs, Kind.sameClass, pure, Except.pure]

/-- A pattern that is no name matches its instance, if what it applies and its arguments do. -/
theorem IsPlain.matchesInstance_of_parts (h : IsPlain params) (hp : p.isIdent = false)
    (hs : Admissible params s p.names) (hfunc : ∀ f ∈ p.func, MatchesInstance params s f)
    (hargs : ∀ a ∈ p.args, MatchesInstance params s a) : MatchesInstance params s p := by
  unfold MatchesInstance
  rw [names_of_isIdent_eq_false hp] at hs ⊢
  rw [fill_of_isIdent_eq_false hp]
  cases hf : p.func with
  | none =>
    rw [hf] at hs
    by_cases hleaf : p.args = []
    · -- nothing is filled in
      have hsame : { p with func := fillOption (s.restrict params) p.func,
                            args := fillList (s.restrict params) p.args } = p := by
        rw [hf, hleaf, fillOption, fillList, ← hf, ← hleaf]
        cases p
        rfl
      rw [← hf, hsame, hf, hleaf]
      exact ⟨[], h.matchNode_leaf hp hf hleaf, finds_nil⟩
    · obtain ⟨m, hm, hfinds⟩ := h.matchArgs_instance hargs hs finds_nil
      refine ⟨m, h.matchNode_parts hp rfl ?_ (.inl ⟨hf, rfl, rfl⟩) hm, hfinds⟩
      rintro ⟨-, hnil⟩
      rw [fillList_eq_map] at hnil
      exact hleaf (map_eq_nil_iff.mp hnil)
  | some f =>
    rw [hf] at hs
    obtain ⟨bs, hbs, hfound⟩ := hfunc f hf
    obtain ⟨m, hm, hfinds⟩ := h.matchArgs_instance hargs hs hfound
    refine ⟨m, h.matchNode_parts hp rfl ?_ (.inr ⟨f, _, hf, rfl, hbs⟩) hm, hfinds⟩
    rintro ⟨hnone, -⟩
    cases hnone

/-- **Every instance of a pattern matches.**  Let a substitution give every plain parameter of a
    pattern a node that the parameter may stand for.  The pattern matches the tree in which these
    nodes stand for the parameters, in argument and func positions, and the match binds exactly the
    parameters of the pattern, each of them to its node. -/
theorem matchNode_fill {p : Node} (hplain : IsPlain params) (hs : Admissible params s p.names) :
    ∃ m, matchNode params p (p.fill (s.restrict params)) = .ok (some m) ∧
      (m.map Prod.fst).Nodup ∧
      ∀ x, m.lookup x = if x ∈ p.names ∧ (params.lookup x).isSome then s.lookup x else none := by
  have hmatches : MatchesInstance params s p := by
    induction p using Node.induction with
    | step p hfunc hargs _ =>
      cases hident : p.isIdent with
      | true =>
        obtain ⟨x, hx⟩ := kind_of_isIdent hident
        rw [Node.names_name hx] at hs
        obtain ⟨m, hm, hfinds⟩ := matchName_instance hx hs
        refine ⟨m, ?_, by rwa [Node.names_name hx]⟩
        rw [matchNode_name hx, hm]
      | false =>
        have hs' := hs
        rw [Node.names_of_isIdent_eq_false hident] at hs'
        refine hplain.matchesInstance_of_parts hident hs (fun f hf => hfunc f hf ?_)
          (fun a ha => hargs a ha ?_)
        · refine hs'.mono fun x hx => List.mem_append_left _ ?_
          rw [Option.mem_def.mp hf]
          exact hx
        · exact hs'.mono fun x hx => List.mem_append_right _ (Node.mem_namesList.mpr ⟨a, ha, hx⟩)
  obtain ⟨m, hm, hfinds⟩ := hmatches
  exact ⟨m, hm, hfinds.nodup, hfinds.lookup⟩

/-- The pattern `f(a, b(a) + 1)`, in which a parameter stands twice and another one is called. -/
def repeatedPattern : Node :=
  Node.ofCall (Node.ident "f")
    [Node.ident "a",
      Node.ofBinary .plain "+" (Node.ofCall (Node.ident "b") [Node.ident "a"]) (Node.ofDigits "1")]

def repeatedParameters : Parameters :=
  [("a", Node.ofBinary .typed ":" (Node.ident "a") (Node.ident "BinOp")), ("b", Node.ident "b")]

/-- `a` stands for `x = y` and `b` for `g`; `f` is no parameter, so what is said about it is left
    aside. -/
def repeatedSubstitution : Bindings :=
  [("a", Node.ofBinary .assign "=" (Node.ident "x") (Node.ident "y")), ("f", Node.ident "h"),
    ("b", Node.ident "g")]

theorem matchNode_fill_repeated : ∃ m, matchNode repeatedParameters repeatedPattern
      (repeatedPattern.fill (repeatedSubstitution.restrict repeatedParameters)) = .ok (some m) ∧
    (m.map Prod.fst).Nodup ∧
    ∀ x, m.lookup x = if x ∈ repeatedPattern.names ∧ (repeatedParameters.lookup x).isSome then
      repeatedSubstitution.lookup x else none := by
  have hplain : IsPlain repeatedParameters := by decide
  have hs : Admissible repeatedParameters repeatedSubstitution repeatedPattern.names := by
    intro x hx declaration hlookup
    have hnames : repeatedPattern.names = ["f", "a", "b", "a"] := by decide
    rw [hnames] at hx
    simp only [List.mem_cons, List.not_mem_nil, or_false] at hx
    rcases hx with rfl | rfl | rfl | rfl
    · cases hlookup
    · cases hlookup
      exact ⟨_, rfl, .typed rfl rfl (.binary rfl)⟩
    · cases hlookup
      exact ⟨_, rfl, .untyped rfl⟩
    · cases hlookup
      exact ⟨_, rfl, .typed rfl rfl (.binary rfl)⟩
  exact matchNode_fill hplain hs

end Cppward.Macro
