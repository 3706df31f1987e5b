import Cppward.Macro.Match
import Cppward.Proofs.Node.Likeness

namespace Cppward.Macro

open List Node

/-!
# What a match consists of

The matcher tries the special readings of a pattern first and compares part by part in the end.
This file says once what each of its functions can do, so that the properties of matches need not
open them again.

* `IsPlain` — parameters without a declaration, or with a class for one.  They stand for exactly one
  node, so runs of arguments and absent operands do not arise.
* `matchNode_name`, `NeverAbsent.matchNode_cases` — a match of a pattern none of whose parameters may
  be absent: a name, a childless node with the same text, or a node of the same class whose parts
  match.
-/

variable {n p : Node} {name : String} {m bs : Bindings} {afterRun : Bool} {ps args : List Node}

/-! ### Bindings -/

namespace Bindings

theorem lookup_append_single (bs : Bindings) (b : String × Node) (x : String) :
    List.lookup x (bs ++ [b]) = (bs.lookup x).or (if x = b.1 then some b.2 else none) := by
  rw [lookup_append, lookup_cons, lookup_nil]
  by_cases hx : x = b.1
  · simp [hx]
  · simp [hx, beq_false_of_ne hx]

/-- Of two sets of bindings that are joined the first decides, if it binds the name. -/
theorem lookup_union (bs new : Bindings) (x : String) :
    (bs.union new).lookup x = (bs.lookup x).or (new.lookup x) := by
  unfold union
  induction new generalizing bs with
  | nil => simp
  | cons b new ih =>
    rw [foldl_cons, ih, lookup_cons]
    by_cases hx : x = b.1
    · subst hx
      cases hbs : bs.lookup b.1 with
      | none => simp [hbs, lookup_append_single]
      | some n => simp [hbs]
    · have hne : (x == b.1) = false := by simpa using hx
      cases hbs : (bs.lookup b.1).isSome with
      | true => simp [hne]
      | false => simp [lookup_append_single, hx, hne]

end Bindings

/-! ### Plain parameters -/

/-- Every parameter is declared by its name alone or by a name with a class. -/
def IsPlain (params : Parameters) : Prop :=
  ∀ d ∈ params, d.2.isIdent = true ∨ ∃ type ∈ declaredClass? d.2, type.isIdent = true

instance : DecidablePred IsPlain := fun params =>
  inferInstanceAs (Decidable (∀ d ∈ params, d.2.isIdent = true ∨
    ∃ type ∈ declaredClass? d.2, type.isIdent = true))

variable {params : Parameters}

theorem kind_of_isIdent (h : n.isIdent = true) : ∃ s, n.kind = .name s := by
  obtain ⟨info, kind, func, args, type⟩ := n
  cases kind <;> simp_all [isIdent, Node.name?]

theorem IsPlain.declaredClass (h : IsPlain params) {type : Node}
    (htype : (params.lookup name).bind declaredClass? = some type) : ∃ s, type.kind = .name s := by
  obtain ⟨declaration, hlookup, hclass⟩ := Option.bind_eq_some_iff.mp htype
  obtain ⟨l₁, l₂, rfl, -⟩ := lookup_eq_some_iff.mp hlookup
  rcases h (name, declaration) (by simp) with hident | ⟨type', hclass', hident⟩
  · -- a name has no declared class
    obtain ⟨s, hs⟩ : ∃ s, declaration.kind = .name s := kind_of_isIdent hident
    simp [declaredClass?, isTyped, isClause, binary?, hs] at hclass
  · obtain rfl := Option.some.inj (hclass.symm.trans hclass')
    exact kind_of_isIdent hident

/-- A plain parameter never stands for a run of arguments. -/
theorem IsPlain.variadic? (h : IsPlain params) (p : Node) : variadic? params p = .ok none := by
  unfold Macro.variadic?
  cases p.name? with
  | none => rfl
  | some name =>
    cases hlookup : params.lookup name with
    | none => simp [hlookup]
    | some declaration =>
      cases hclass : declaredClass? declaration with
      | none => simp [hlookup, hclass]
      | some type =>
        have hbind : (params.lookup name).bind declaredClass? = some type := by
          rw [hlookup, Option.bind_some, hclass]
        obtain ⟨s, hs⟩ := h.declaredClass hbind
        simp [hlookup, hclass, isList, hs]

theorem IsPlain.isOptional (h : IsPlain params) (name : String) :
    isOptional params name = false := by
  unfold Macro.isOptional
  split
  · rename_i type htype
    obtain ⟨s, hs⟩ := h.declaredClass htype
    simp [isBitOr, binary?, hs]
  · rfl

def NeverAbsent (params : Parameters) : Prop := ∀ name, isOptional params name = false

theorem IsPlain.neverAbsent (h : IsPlain params) : NeverAbsent params := h.isOptional

/-- If no parameter may be absent, an operator is never matched by one of its operands alone. -/
theorem NeverAbsent.matchOperand (h : NeverAbsent params) (operands : List (Node × (Node → Match)))
    (n : Node) (ps : List Node) : matchOperand params operands n ps = .ok none := by
  induction ps with
  | nil => rfl
  | cons p ps ih =>
    unfold Macro.matchOperand
    split
    · exact ih
    · rename_i name _
      rw [h name, if_neg (by simp)]
      exact ih

/-! ### Patterns -/

theorem matchers_eq (params : Parameters) (ps : List Node) :
    matchers params ps = ps.map (matchNode params) :=
  eq_map rfl (fun _ _ => rfl) ps

/-- The arguments of a pattern, each with the way to match it. -/
def operandsOf (params : Parameters) (ps : List Node) : List (Node × (Node → Match)) :=
  ps.map fun p => (p, matchNode params p)

theorem zip_matchers (params : Parameters) (ps : List Node) :
    ps.zip (matchers params ps) = operandsOf params ps := by
  rw [matchers_eq, operandsOf]
  induction ps with
  | nil => rfl
  | cons p ps ih => rw [map_cons, zip_cons_cons, ih, map_cons]

theorem matchNode_name {s : String} (h : p.kind = .name s) (n : Node) :
    matchNode params p n = .ok (matchName params s n) := by
  obtain ⟨info, kind, func, args, type⟩ := p
  obtain rfl : kind = .name s := h
  rw [matchNode]
  rfl

/-- The comparison of a pattern with a node part by part, after the special readings of the pattern
    have failed. -/
def matchParts (params : Parameters) (p n : Node) : Match := do
  if !n.kind.sameClass p.kind || n.func.isSome != p.func.isSome then
    return none
  if n.args.isEmpty && n.func.isNone then
    return if n.text == p.text then some [] else none
  match n.func with
  | none => matchArgs params false (operandsOf params p.args) n.args []
  | some f =>
    match ← matchFunc params p.func f with
    | none => return none
    | some bs => matchArgs params false (operandsOf params p.args) n.args bs

/-- A pattern that is neither a name nor an operator is compared part by part. -/
theorem matchNode_eq_matchParts (hp : p.isIdent = false) (hbinary : p.isBinary = false)
    (n : Node) : matchNode params p n = matchParts params p n := by
  obtain ⟨info, kind, func, args, type⟩ := p
  cases kind with
  | name s => simp [isIdent, Node.name?] at hp
  | binary cls op => simp [isBinary, binary?] at hbinary
  | _ =>
    rw [matchNode.eq_def]
    dsimp only
    rw [zip_matchers]
    rfl

/-- If no parameter may be absent, a pattern that is no name is compared part by part. -/
theorem NeverAbsent.matchNode_eq (h : NeverAbsent params) (hp : p.isIdent = false)
    (n : Node) : matchNode params p n = matchParts params p n := by
  cases hbinary : p.isBinary with
  | false => exact matchNode_eq_matchParts hp hbinary n
  | true =>
    obtain ⟨info, kind, func, args, type⟩ := p
    cases kind with
    | binary cls op =>
      rw [matchNode, zip_matchers, h.matchOperand]
      rfl
    | _ => simp [isBinary, binary?] at hbinary

/-- A match of a node that is no name: it has the class of the pattern, and either both are childless
    and print alike, or their parts match. -/
theorem NeverAbsent.matchNode_cases (h : NeverAbsent params)
    (hp : p.isIdent = false) (hm : matchNode params p n = .ok (some m)) :
    p.kind.className = n.kind.className ∧
      ((p.func = none ∧ n.func = none ∧ n.args = [] ∧ p.text = n.text ∧ m = []) ∨
        ¬(n.func = none ∧ n.args = []) ∧
        ∃ bs, (p.func = none ∧ n.func = none ∧ bs = [] ∨
            ∃ f g, p.func = some f ∧ n.func = some g ∧ matchNode params f g = .ok (some bs)) ∧
          matchArgs params false (operandsOf params p.args) n.args bs = .ok (some m)) := by
  rw [h.matchNode_eq hp] at hm
  unfold matchParts at hm
  simp only [bind, Except.bind, pure, Except.pure] at hm
  split at hm
  · exact absurd hm (by simp)
  · rename_i hsame
    simp only [Kind.sameClass, Bool.or_eq_true, Bool.not_eq_true', beq_eq_false_iff_ne, ne_eq,
      bne_iff_ne, not_or, not_not] at hsame
    obtain ⟨hclass, hfunc⟩ := hsame
    refine ⟨hclass.symm, ?_⟩
    split at hm
    · rename_i hchildless
      simp only [Bool.and_eq_true, List.isEmpty_iff, Option.isNone_iff_eq_none] at hchildless
      obtain ⟨hargs, hnf⟩ := hchildless
      rw [hnf] at hfunc
      have hpf : p.func = none := by simpa using hfunc.symm
      split at hm
      · rename_i htext
        have hm' : m = [] := by simpa using hm.symm
        exact .inl ⟨hpf, hnf, hargs, (beq_iff_eq.mp htext).symm, hm'⟩
      · exact absurd hm (by simp)
    · rename_i hparts
      refine .inr ⟨fun hchildless => hparts (by simp [hchildless]), ?_⟩
      cases hnf : n.func with
      | none =>
        rw [hnf] at hm hfunc
        exact ⟨[], .inl ⟨by simpa using hfunc.symm, rfl, rfl⟩, hm⟩
      | some g =>
        rw [hnf] at hm hfunc
        cases hpf : p.func with
        | none => exact absurd hfunc (by simp [hpf])
        | some f =>
          rw [hpf] at hm
          simp only [matchFunc] at hm
          cases hfg : matchNode params f g with
          | error e => exact absurd hm (by simp [hfg])
          | ok r =>
            rw [hfg] at hm
            cases r with
            | none => exact absurd hm (by simp)
            | some bs => exact ⟨bs, .inr ⟨f, g, rfl, rfl, hfg⟩, hm⟩

/-! ### Lists of arguments -/

/-- An argument that a run takes in: the element of the run, by the name of the parameter, matches
    it. -/
def runFits (element : String) (cls a : Node) : Bool := (wildcardTyped element element a cls).isSome

theorem matchArgs_single
    (h : afterRun = true ∨ variadic? params p = .ok none) (ps args : List Node) (bs : Bindings) :
    matchArgs params afterRun (operandsOf params (p :: ps)) args bs =
      match args with
      | [] => .ok none
      | a :: rest => (matchNode params p a).bind fun
        | none => .ok none
        | some found => matchArgs params false (operandsOf params ps) rest (bs.union found) := by
  rw [operandsOf, map_cons, matchArgs.eq_def]
  dsimp only
  rcases h with rfl | h
  · rfl
  · rw [h]
    cases afterRun <;> rfl

theorem matchArgs_run {cls : Node} {element : String}
    (h : variadic? params p = .ok (some (name, element, cls))) (ps args : List Node) (bs : Bindings) :
    matchArgs params false (operandsOf params (p :: ps)) args bs =
      matchArgs params true (operandsOf params ps) (args.dropWhile (runFits element cls))
        (bs.set name (make .list none (args.takeWhile (runFits element cls)))) := by
  simp only [operandsOf, map_cons, matchArgs, Bool.false_eq_true, if_false, h, bind, Except.bind]
  rfl

/-- A match of a list of arguments: it is at its end, or its first pattern stands for one argument, or
    for a run of them. -/
theorem matchArgs_cases
    (hm : matchArgs params afterRun (operandsOf params ps) args bs = .ok (some m)) :
    (ps = [] ∧ args = [] ∧ m = bs) ∨
      (∃ p ps' a args' found, ps = p :: ps' ∧ args = a :: args' ∧
        (afterRun = true ∨ variadic? params p = .ok none) ∧
        matchNode params p a = .ok (some found) ∧
        matchArgs params false (operandsOf params ps') args' (bs.union found) = .ok (some m)) ∨
      ∃ p ps' name element cls, ps = p :: ps' ∧ afterRun = false ∧
        variadic? params p = .ok (some (name, element, cls)) ∧
        matchArgs params true (operandsOf params ps') (args.dropWhile (runFits element cls))
          (bs.set name (make .list none (args.takeWhile (runFits element cls)))) =
            .ok (some m) := by
  cases ps with
  | nil =>
    simp only [operandsOf, map_nil, matchArgs] at hm
    cases args with
    | nil => exact .inl ⟨rfl, rfl, by simpa using hm.symm⟩
    | cons a args => exact absurd hm (by simp)
  | cons p ps =>
    refine .inr ?_
    by_cases hone : afterRun = true ∨ variadic? params p = .ok none
    · refine .inl ?_
      rw [matchArgs_single hone] at hm
      cases args with
      | nil => cases hm
      | cons a args =>
        dsimp only at hm
        rcases hpa : matchNode params p a with e | _ | found <;> rw [hpa] at hm
        · cases hm
        · cases hm
        · exact ⟨p, ps, a, args, found, rfl, rfl, hone, hpa, hm⟩
    · refine .inr ?_
      obtain ⟨hafter, hvariadic⟩ := not_or.mp hone
      obtain rfl : afterRun = false := by simpa using hafter
      rcases hv : variadic? params p with e | _ | ⟨name, element, cls⟩
      · simp [operandsOf, matchArgs, hv, bind, Except.bind] at hm
      · exact absurd hv hvariadic
      · rw [matchArgs_run hv] at hm
        exact ⟨p, ps, name, element, cls, rfl, rfl, hv, hm⟩

/-- With plain parameters there are equally many arguments, and they match one by one, each adding its
    bindings. -/
theorem IsPlain.matchArgs_cases (h : IsPlain params)
    (hm : matchArgs params false (operandsOf params ps) args bs = .ok (some m)) :
    (ps = [] ∧ args = [] ∧ m = bs) ∨
      ∃ p ps' a args' found, ps = p :: ps' ∧ args = a :: args' ∧
        matchNode params p a = .ok (some found) ∧
        matchArgs params false (operandsOf params ps') args' (bs.union found) = .ok (some m) := by
  rcases Macro.matchArgs_cases hm with hend | ⟨p, ps', a, args', found, hps, hargs, -, hpa, hrest⟩ |
    ⟨p, ps', name, element, cls, -, -, hrun, -⟩
  · exact .inl hend
  · exact .inr ⟨p, ps', a, args', found, hps, hargs, hpa, hrest⟩
  · rw [h.variadic? p] at hrun
    cases hrun

end Cppward.Macro
