import Cppward.Proofs.Macro.Completeness
import Mathlib.Data.List.TakeWhile

namespace Cppward.Macro

open List Node

/-!
# What a match binds

A parameter may be declared with a class, with alternatives, or as a run of arguments.  A match should
give every parameter of its pattern a node that the declaration allows.  It does so unless the very
name of the parameter stands in the node: a name that the declaration does not allow is then compared
with the parameter like any other name, and matches it without being bound.

* `IsOfType`, `Satisfies` — the nodes that a declaration allows, said without the matcher.
* `IsDeclared` — the declarations in question.
* `Supplies` — what one parameter gets from a match; `Supplies.union` and `Supplies.set` follow the
  bindings through a list of arguments.
* `bound_of_matchNode` — every parameter is bound to a node that it allows, unless it does not take its
  own name and the name stands in the node; `unbound_by_own_name` shows what happens then.
-/

variable {p type n cls : Node} {s name param : String} {m : Bindings} {names : List String}
  {args : List Node}

/-! ### Declarations -/

/-- The node is of the declared type: a class, or one of several types. -/
inductive IsOfType : Node → Node → Prop
  | one {type n : Node} {name : String} (hkind : type.kind = .name name) (h : IsOfClass name n) :
      IsOfType type n
  | alternative {type t n : Node} (hkind : type.isBitOr = true) (ht : t ∈ type.args)
      (h : IsOfType t n) : IsOfType type n

/-- The node is what a parameter with this declaration may stand for.  A run stands for a list of
    nodes. -/
inductive Satisfies (declaration n : Node) : Prop
  | untyped (h : declaration.isIdent = true)
  | typed {type : Node} (htype : declaredClass? declaration = some type) (h : IsOfType type n)
  | run {type cls : Node} (htype : declaredClass? declaration = some type)
      (hlist : type.isList = true) (hargs : type.args = [cls]) (hn : n.kind = .list)
      (h : ∀ a ∈ n.args, IsOfType cls a)

/-- A type that a single node has: a class, or alternatives none of which is `None`. -/
inductive IsSingle : Node → Prop
  | one {type : Node} {name : String} (hkind : type.kind = .name name) (hname : name ≠ "None") :
      IsSingle type
  | alternatives {type : Node} (hkind : type.isBitOr = true) (h : ∀ t ∈ type.args, IsSingle t) :
      IsSingle type

/-- A declaration of the parameter `x`: its name, or its name with a type for one node or for the
    elements of a run. -/
inductive Declares (x : String) (declaration : Node) : Prop
  | untyped (h : declaration.kind = .name x)
  | typed {type : Node} (hname : declaration.lhsName? = some x)
      (htype : declaredClass? declaration = some type) (h : IsSingle type)
  | run {type cls : Node} {name : String} (hname : declaration.lhsName? = some x)
      (htype : declaredClass? declaration = some type) (hlist : type.isList = true)
      (hargs : type.args = [cls]) (hcls : cls.kind = .name name)

/-- All parameters are declared in one of these ways. -/
def IsDeclared (params : Parameters) : Prop := ∀ d ∈ params, Declares d.1 d.2

/-- The type whose turn comes first allows names. -/
inductive TakesNames : Node → Prop
  | one {type : Node} {name : String} (hkind : type.kind = .name name)
      (h : name = "Node" ∨ name = "Identifier") : TakesNames type
  | first {type t : Node} {ts : List Node} (hkind : type.isBitOr = true) (hargs : type.args = t :: ts)
      (h : TakesNames t) : TakesNames type

/-- The declaration allows names, as what the parameter stands for or as elements of a run. -/
inductive TakesName (declaration : Node) : Prop
  | untyped (h : declaration.isIdent = true)
  | typed {type : Node} (htype : declaredClass? declaration = some type) (h : TakesNames type)
  | run {type cls : Node} (htype : declaredClass? declaration = some type)
      (hlist : type.isList = true) (hargs : type.args = [cls]) (h : TakesNames cls)

def isRun (declaration : Node) : Bool := (declaredClass? declaration).any Node.isList

/-- The pattern is a parameter that stands for a run of arguments. -/
def startsRun (params : Parameters) (p : Node) : Bool :=
  match variadic? params p with
  | .ok (some _) => true
  | _ => false

mutual
/-- The names of a pattern that stand where a single node is expected. -/
def singles (params : Parameters) : Node → List String
  | ⟨_, kind, func, args, _⟩ =>
    match kind with
    | .name s => [s]
    | _ => singlesOption params func ++ singlesList params false args

def singlesOption (params : Parameters) : Option Node → List String
  | none => []
  | some n => singles params n

def singlesList (params : Parameters) (afterRun : Bool) : List Node → List String
  | [] => []
  | p :: ps =>
    if !afterRun && startsRun params p then singlesList params true ps
    else singles params p ++ singlesList params false ps
end

/-- The parameter `x` stands for its own name where this is met: its declaration allows names, and a
    run is nowhere in the place of a single node. -/
def TakesOwnName (params : Parameters) (p : Node) (x : String) (declaration : Node) : Prop :=
  TakesName declaration ∧ (isRun declaration = true → x ∉ singles params p)

variable {params : Parameters} {x : String} {d : Node}

theorem singles_name (h : p.kind = .name s) : singles params p = [s] := by
  obtain ⟨info, kind, func, args, type⟩ := p
  obtain rfl : kind = .name s := h
  rfl

theorem singles_of_isIdent_eq_false (h : p.isIdent = false) :
    singles params p = singlesOption params p.func ++ singlesList params false p.args := by
  obtain ⟨info, kind, func, args, type⟩ := p
  cases kind <;> first | rfl | simp [isIdent, Node.name?] at h

theorem isIdent_eq_false_of_declaredClass {declaration : Node}
    (h : declaredClass? declaration = some type) : declaration.isIdent = false := by
  by_contra hident
  obtain ⟨t, ht⟩ := kind_of_isIdent (Bool.not_eq_false _ ▸ hident)
  simp [declaredClass?, isTyped, isClause, binary?, ht] at h

theorem Declares.of_lookup (h : IsDeclared params) (hd : params.lookup x = some d) : Declares x d := by
  obtain ⟨l₁, l₂, rfl, -⟩ := lookup_eq_some_iff.mp hd
  exact h (x, d) (by simp)

/-- Alternatives without `None` never make a parameter absent. -/
theorem IsDeclared.neverAbsent (h : IsDeclared params) : NeverAbsent params := by
  intro name
  unfold isOptional
  split
  · rename_i type htype
    obtain ⟨d, hd, hclass⟩ := Option.bind_eq_some_iff.mp htype
    -- the name of an alternative is not `None`
    have hsingle : ∀ (t : Option Node) (s : String), (∀ u, t = some u → IsSingle u) →
        t.bind Node.name? = some s → s ≠ "None" := by
      intro t s ht hs
      obtain ⟨u, rfl, hu⟩ := Option.bind_eq_some_iff.mp hs
      cases ht u rfl with
      | one hkind hname =>
        rw [Node.name?, hkind, Option.some.injEq] at hu
        exact hu ▸ hname
      | alternatives hkind _ =>
        obtain ⟨info, kind, func, args, type⟩ := u
        cases kind <;> simp_all [Node.name?, isBitOr, binary?]
    cases Declares.of_lookup h hd with
    | untyped hkind =>
      have := isIdent_eq_false_of_declaredClass hclass
      simp [isIdent, Node.name?, hkind] at this
    | @typed type' _ hclass' htype' =>
      obtain rfl := Option.some.inj (hclass.symm.trans hclass')
      cases htype' with
      | one hkind _ => simp [isBitOr, binary?, hkind]
      | alternatives _ halternatives =>
        have hl : type.lhsName? ≠ some "None" := fun hnone =>
          hsingle _ _ (fun u hu => halternatives u (mem_of_getElem? hu)) hnone rfl
        have hr : type.rhsName? ≠ some "None" := fun hnone =>
          hsingle _ _ (fun u hu => halternatives u (mem_of_getElem? hu)) hnone rfl
        simp [hl, hr]
    | @run type' cls name' _ hclass' hlist _ _ =>
      obtain rfl := Option.some.inj (hclass.symm.trans hclass')
      have hkind : type.kind = .list := by simpa [isList] using hlist
      simp [isBitOr, binary?, hkind]
  · rfl

/-! ### A name in a pattern -/

theorem kind_of_sameName (h : sameName name n = some m) : m = [] ∧ n.kind = .name name := by
  unfold sameName at h
  split at h
  · rename_i hnamed
    refine ⟨by simpa using h.symm, ?_⟩
    obtain ⟨info, kind, func, args, type⟩ := n
    cases kind <;> simp_all [isNamed, Node.name?]
  · cases h

theorem isOfClass_of_admits (h : admits name n = true) : IsOfClass name n := by
  simp only [admits, Bool.or_eq_true, Bool.and_eq_true, beq_iff_eq] at h
  rcases h with ((⟨rfl, h⟩ | ⟨rfl, h⟩) | rfl) | rfl
  · exact .binary h
  · exact .unary h
  · exact .any n
  · exact .same n

theorem admits_iff : admits name n = true ↔ IsOfClass name n :=
  ⟨isOfClass_of_admits, admits_of_isOfClass⟩

/-- What a type allows is bound; all else has to be the name itself, which is not bound. -/
theorem wildcardTyped_cases (h : wildcardTyped name param n type = some m) :
    (m = [(param, n)] ∧ IsOfType type n) ∨ (m = [] ∧ n.kind = .name name) := by
  induction type using Node.induction generalizing m with
  | step type _ hargs _ =>
    have hlist : ∀ ts : List Node, (∀ t ∈ ts, t ∈ type.args) →
        wildcardAlternatives name param n ts = some m →
        (m = [(param, n)] ∧ ∃ t ∈ ts, IsOfType t n) ∨ (m = [] ∧ n.kind = .name name) := by
      intro ts hts hm
      induction ts with
      | nil => exact .inr (kind_of_sameName hm)
      | cons t ts ih =>
        rw [wildcardAlternatives] at hm
        cases ht : wildcardTyped name param n t with
        | some bs =>
          rw [ht] at hm
          cases hm
          rcases hargs t (hts t mem_cons_self) ht with ⟨hm, htype⟩ | hsame
          · exact .inl ⟨hm, t, mem_cons_self, htype⟩
          · exact .inr hsame
        | none =>
          rw [ht] at hm
          rcases ih (fun u hu => hts u (mem_cons_of_mem t hu)) hm with ⟨hm, u, hu, htype⟩ | hsame
          · exact .inl ⟨hm, u, mem_cons_of_mem t hu, htype⟩
          · exact .inr hsame
    obtain ⟨info, kind, func, args, type⟩ := type
    rw [wildcardTyped.eq_def] at h
    dsimp only at h
    split at h
    · rename_i cls
      split at h
      · rename_i hadmits
        exact .inl ⟨by simpa using h.symm, .one rfl (isOfClass_of_admits hadmits)⟩
      · exact .inr (kind_of_sameName h)
    · rcases hlist args (fun _ ht => ht) h with ⟨hm, t, ht, htype⟩ | hsame
      · exact .inl ⟨hm, .alternative rfl ht htype⟩
      · exact .inr hsame
    · exact .inr (kind_of_sameName h)

/-- A type that takes names binds every name. -/
theorem wildcardTyped_of_takesNames (h : TakesNames type)
    (hn : n.isIdent = true) : wildcardTyped name param n type = some [(param, n)] := by
  induction h with
  | @one type cls hkind hcls =>
    obtain ⟨info, kind, func, args, type⟩ := type
    obtain rfl : kind = .name cls := hkind
    obtain ⟨s, hs⟩ := kind_of_isIdent hn
    have hadmits : admits cls n = true := by
      rcases hcls with rfl | rfl <;> simp [admits, hs, Kind.className]
    rw [wildcardTyped.eq_def]
    simp [hadmits]
  | @first type t ts hkind hargs _ ih =>
    obtain ⟨info, kind, func, args, type⟩ := type
    obtain rfl : args = t :: ts := hargs
    obtain ⟨op, rfl⟩ : ∃ op, kind = .binary .bitOr op := by
      cases kind <;> simp_all [isBitOr, binary?]
    rw [wildcardTyped.eq_def]
    simp [wildcardAlternatives, ih]

/-- An element of a run is of the class of the run, or it is the name of the run. -/
theorem runFits_iff {a : Node} (hcls : cls.kind = .name name) :
    runFits x cls a = true ↔ IsOfClass name a ∨ a.isNamed x = true := by
  obtain ⟨info, kind, func, args, type⟩ := cls
  obtain rfl : kind = .name name := hcls
  unfold runFits
  rw [wildcardTyped.eq_def]
  dsimp only
  by_cases hadmits : admits name a = true
  · simp [hadmits, admits_iff.mp hadmits]
  · have hclass : ¬IsOfClass name a := fun h => hadmits (admits_iff.mpr h)
    cases hnamed : a.isNamed x <;> simp [hadmits, hclass, sameName, hnamed]

theorem variadic?_eq_some (hp : p.kind = .name x)
    (hd : params.lookup x = some d) (hname : d.lhsName? = some x) (htype : declaredClass? d = some type)
    (hlist : type.isList = true) (hargs : type.args = [cls]) (hcls : cls.kind = .name name) :
    variadic? params p = .ok (some (x, x, cls)) := by
  have hpname : p.name? = some x := by simp [Node.name?, hp]
  have hident : cls.isIdent = true := by simp [isIdent, Node.name?, hcls]
  simp [variadic?, hpname, hd, htype, hlist, hargs, hident, hname]

/-- What a run of arguments is declared as. -/
theorem variadic?_cases {element : String}
    (h : variadic? params p = .ok (some (name, element, cls))) :
    p.kind = .name name ∧ ∃ d type, params.lookup name = some d ∧ d.lhsName? = some element ∧
      declaredClass? d = some type ∧ type.isList = true ∧ type.args = [cls] := by
  unfold variadic? at h
  split at h
  · cases h
  rename_i s hs
  have hp : p.kind = .name s := by
    obtain ⟨info, kind, func, args, type⟩ := p
    cases kind <;> simp_all [Node.name?]
  split at h
  · cases h
  rename_i d hd
  split at h
  · cases h
  rename_i type htype
  split at h
  · cases h
  rename_i hlist
  split at h
  · rename_i c hargs
    split at h
    · cases h
    · split at h
      · cases h
      · rename_i e he
        cases h
        exact ⟨hp, d, type, hd, he, htype, by simpa using hlist, hargs⟩
  · cases h

/-! ### What one parameter gets -/

/-- Bindings give the parameter `x` only what its declaration allows, and something if it is among the
    names. -/
structure Supplies (d : Node) (x : String) (names : List String) (m : Bindings) : Prop where
  allowed : ∀ b, m.lookup x = some b → Satisfies d b
  bound : x ∈ names → (m.lookup x).isSome = true

theorem supplies_nil : Supplies d x [] [] where
  allowed b h := by cases h
  bound h := by cases h

/-- Bindings of other parameters do not matter. -/
theorem Supplies.of_lookup_eq_none (hx : x ∉ names)
    (h : m.lookup x = none) : Supplies d x names m where
  allowed b hb := by rw [h] at hb; cases hb
  bound hmem := absurd hmem hx

theorem Supplies.union {as bs : List String} {found : Bindings} (hm : Supplies d x as m)
    (hfound : Supplies d x bs found) : Supplies d x (as ++ bs) (m.union found) where
  allowed b hb := by
    rw [Bindings.lookup_union, Option.or_eq_some_iff] at hb
    exact hb.elim (hm.allowed b) fun h => hfound.allowed b h.2
  bound hx := by
    rw [Bindings.lookup_union, Option.isSome_or, Bool.or_eq_true]
    exact (mem_append.mp hx).imp hm.bound hfound.bound

/-- A binding that is set hides the former one of its name. -/
theorem Bindings.lookup_set (bs : Bindings) (name x : String) (n : Node) :
    (bs.set name n).lookup x = if x = name then some n else bs.lookup x := by
  unfold set
  rw [lookup_append_single]
  by_cases hx : x = name
  · subst hx
    have hnone : List.lookup x (bs.filter (·.1 != x)) = none := by
      rw [lookup_eq_none_iff]
      intro b hb
      have hne : b.1 ≠ x := by simpa using (mem_filter.mp hb).2
      exact bne_iff_ne.mpr hne.symm
    rw [hnone, if_pos rfl, if_pos rfl, Option.none_or]
  · have hkeep : List.lookup x (bs.filter (·.1 != name)) = bs.lookup x := by
      induction bs with
      | nil => rfl
      | cons b bs ih =>
        obtain ⟨y, v⟩ := b
        by_cases hy : y = name
        · have hxy : (x == y) = false := by simpa [hy] using hx
          simp [hy, lookup_cons, hy ▸ hxy, ih]
        · simp [hy, lookup_cons, ih]
    rw [hkeep, if_neg hx, if_neg hx, Option.or_none]

/-- A run is bound anew: whatever stood for the parameter before is replaced. -/
theorem Supplies.set (hm : Supplies d x names m) (hn : x = name → Satisfies d n) :
    Supplies d x (names ++ [name]) (m.set name n) := by
  by_cases hx : x = name
  · refine ⟨fun b hb => ?_, fun _ => ?_⟩
    · rw [Bindings.lookup_set, if_pos hx, Option.some.injEq] at hb
      exact hb ▸ hn hx
    · rw [Bindings.lookup_set, if_pos hx]
      rfl
  · refine ⟨fun b hb => ?_, fun hmem => ?_⟩
    · rw [Bindings.lookup_set, if_neg hx] at hb
      exact hm.allowed b hb
    · rw [Bindings.lookup_set, if_neg hx]
      simp only [mem_append, mem_singleton, hx, or_false] at hmem
      exact hm.bound hmem

/-! ### Matches -/

/-- A name in a pattern binds itself at most. -/
theorem lookup_of_matchName (h : matchName params s n = some m)
    (hx : x ≠ s) : m.lookup x = none := by
  have hcases : m = [(s, n)] ∨ m = [] := by
    unfold matchName at h
    split at h
    · exact .inr (kind_of_sameName h).1
    · split at h
      · exact .inl (by simpa using h.symm)
      · split at h
        · exact (wildcardTyped_cases h).imp And.left And.left
        · exact .inr (kind_of_sameName h).1
  rcases hcases with rfl | rfl
  · simp [lookup_cons, beq_false_of_ne hx]
  · rfl

/-- What a parameter matches is bound to its name alone. -/
theorem supplies_of_matchName (hd : params.lookup x = some d)
    (hdeclares : Declares x d) (hname : n.kind = .name x → TakesName d ∧ isRun d = false)
    (h : matchName params x n = some m) : Supplies d x [x] m := by
  -- bound to the node, the parameter needs the node to be allowed
  have hbound : Satisfies d n → m = [(x, n)] → Supplies d x [x] m := by
    rintro hn rfl
    exact ⟨fun b hb => by simp_all, fun _ => by simp⟩
  unfold matchName at h
  rw [hd] at h
  dsimp only at h
  cases hdeclares with
  | untyped hkind =>
    have hident : d.isIdent = true := by simp [isIdent, Node.name?, hkind]
    rw [if_pos hident] at h
    exact hbound (.untyped hident) (by simpa using h.symm)
  | @typed type _ htype _ =>
    rw [if_neg (by simp [isIdent_eq_false_of_declaredClass htype]), htype] at h
    rcases wildcardTyped_cases h with ⟨hm, hof⟩ | ⟨rfl, hn⟩
    · exact hbound (.typed htype hof) hm
    · -- the name itself is met, so it is bound
      have hident : n.isIdent = true := by simp [isIdent, Node.name?, hn]
      obtain ⟨htakes, hrun⟩ := hname hn
      cases htakes with
      | untyped hident' => simp [isIdent_eq_false_of_declaredClass htype] at hident'
      | typed htype' htakes =>
        obtain rfl := Option.some.inj (htype.symm.trans htype')
        have h' : wildcardTyped x x n type = some [] := h
        rw [wildcardTyped_of_takesNames htakes hident] at h'
        cases h'
      | run htype' hlist _ _ => simp [isRun, htype', hlist] at hrun
  | @run type cls name _ htype hlist _ _ =>
    rw [if_neg (by simp [isIdent_eq_false_of_declaredClass htype]), htype] at h
    rcases wildcardTyped_cases h with ⟨-, hof⟩ | ⟨rfl, hn⟩
    · -- a list of types is not the type of a node
      have hkind : type.kind = .list := by simpa [isList] using hlist
      cases hof with
      | one hkind' _ => rw [hkind] at hkind'; cases hkind'
      | alternative hkind' _ _ => simp [isBitOr, binary?, hkind] at hkind'
    · have hrun := (hname hn).2
      simp [isRun, htype, hlist] at hrun

/-- What is taken into a run is allowed by it. -/
theorem satisfies_takeWhile (htype : declaredClass? d = some type)
    (hlist : type.isList = true) (hargs : type.args = [cls])
    (hname : x ∈ namesList args → TakesName d) :
    Satisfies d (make .list none (args.takeWhile (runFits x cls))) := by
  refine .run htype hlist hargs rfl fun a (ha : a ∈ args.takeWhile (runFits x cls)) => ?_
  have hfits : runFits x cls a = true := mem_takeWhile_imp ha
  obtain ⟨m, hm⟩ := Option.isSome_iff_exists.mp hfits
  rcases wildcardTyped_cases hm with ⟨-, hof⟩ | ⟨rfl, hn⟩
  · exact hof
  · have hident : a.isIdent = true := by simp [isIdent, Node.name?, hn]
    have hmem : x ∈ namesList args := mem_namesList.mpr
      ⟨a, (takeWhile_sublist _).subset ha, by rw [names_name hn]; exact mem_singleton_self x⟩
    cases hname hmem with
    | untyped hident' => simp [isIdent_eq_false_of_declaredClass htype] at hident'
    | typed htype' htakes =>
      -- a list of types takes no names
      obtain rfl := Option.some.inj (htype.symm.trans htype')
      have hkind : type.kind = .list := by simpa [isList] using hlist
      cases htakes with
      | one hkind' _ => rw [hkind] at hkind'; cases hkind'
      | first hkind' _ _ => simp [isBitOr, binary?, hkind] at hkind'
    | run htype' _ hargs' htakes =>
      obtain rfl := Option.some.inj (htype.symm.trans htype')
      obtain rfl : cls = _ := (List.cons.inj (hargs.symm.trans hargs')).1
      rw [wildcardTyped_of_takesNames htakes hident] at hm
      cases hm

/-- Every match of the pattern gives the parameter what it has to. -/
def AlwaysSupplies (params : Parameters) (d : Node) (x : String) (p : Node) : Prop :=
  ∀ n m, p.wellFormed = true → n.wellFormed = true → matchNode params p n = .ok (some m) →
    (x ∈ n.names → TakesOwnName params p x d) → Supplies d x p.names m

/-- A list of arguments goes on with what was bound before.  The induction is over the patterns; a run
    leaves those behind it a shorter list, in which no other names stand. -/
theorem supplies_of_matchArgs (hd : params.lookup x = some d) {ps : List Node}
    {afterRun : Bool} {before : List String} {bs : Bindings}
    (hdeclares : Declares x d) (hps : ∀ p ∈ ps, AlwaysSupplies params d x p)
    (hpwf : ∀ p ∈ ps, p.wellFormed = true) (hawf : ∀ a ∈ args, a.wellFormed = true)
    (hname : x ∈ namesList args →
      TakesName d ∧ (isRun d = true → x ∉ singlesList params afterRun ps))
    (hbs : Supplies d x before bs)
    (hm : matchArgs params afterRun (operandsOf params ps) args bs = .ok (some m)) :
    Supplies d x (before ++ namesList ps) m := by
  induction ps generalizing afterRun args before bs with
  | nil =>
    rcases matchArgs_cases hm with ⟨-, -, rfl⟩ | ⟨_, _, _, _, _, hnil, -⟩ | ⟨_, _, _, _, _, hnil, -⟩
    · simpa [namesList] using hbs
    · cases hnil
    · cases hnil
  | cons p ps ih =>
    rw [namesList, ← append_assoc]
    rcases matchArgs_cases hm with ⟨hnil, -⟩ | ⟨_, _, a, args', found, hcons, rfl, hone, hpa, hrest⟩ |
      ⟨_, _, name, element, cls, hcons, rfl, hrun, hrest⟩
    · cases hnil
    · obtain ⟨rfl, rfl⟩ := List.cons.inj hcons
      have hsingle : (!afterRun && startsRun params p) = false := by
        rcases hone with rfl | hone
        · rfl
        · simp [startsRun, hone]
      simp only [singlesList, hsingle, Bool.false_eq_true, if_false, mem_append, not_or] at hname
      have hfound : Supplies d x p.names found := by
        refine hps p mem_cons_self a found (hpwf p mem_cons_self)
          (hawf a mem_cons_self) hpa fun hx => ?_
        obtain ⟨htakes, hsingles⟩ := hname (mem_append_left _ hx)
        exact ⟨htakes, fun hr => (hsingles hr).1⟩
      refine ih (fun q hq => hps q (mem_cons_of_mem p hq))
        (fun q hq => hpwf q (mem_cons_of_mem p hq))
        (fun b hb => hawf b (mem_cons_of_mem a hb)) (fun hx => ?_) (hbs.union hfound) hrest
      obtain ⟨htakes, hsingles⟩ := hname (mem_append_right _ hx)
      exact ⟨htakes, fun hr => (hsingles hr).2⟩
    · obtain ⟨rfl, rfl⟩ := List.cons.inj hcons
      obtain ⟨hp, d', type, hd', helement, htype, hlist, hargs⟩ := variadic?_cases hrun
      rw [names_name hp]
      have hstarts : startsRun params p = true := by simp [startsRun, hrun]
      simp only [singlesList, hstarts, Bool.not_false, Bool.and_self, if_true] at hname
      have hset : Supplies d x (before ++ [name])
          (bs.set name (make .list none (args.takeWhile (runFits element cls)))) := by
        refine hbs.set fun hx => ?_
        subst hx
        obtain rfl := Option.some.inj (hd.symm.trans hd')
        -- a declared run has the name of the parameter for its elements
        obtain rfl : x = element := by
          cases hdeclares with
          | untyped hkind =>
            have := isIdent_eq_false_of_declaredClass htype
            simp [isIdent, Node.name?, hkind] at this
          | typed hname' _ _ => exact Option.some.inj (hname'.symm.trans helement)
          | run hname' _ _ _ _ => exact Option.some.inj (hname'.symm.trans helement)
        exact satisfies_takeWhile htype hlist hargs fun hx => (hname hx).1
      have hdrop : ∀ {b : Node}, b ∈ args.dropWhile (runFits element cls) → b ∈ args :=
        fun hb => (dropWhile_sublist _).subset hb
      refine ih (fun q hq => hps q (mem_cons_of_mem p hq))
        (fun q hq => hpwf q (mem_cons_of_mem p hq)) (fun b hb => hawf b (hdrop hb))
        (fun hx => hname ?_) hset hrest
      obtain ⟨b, hb, hxb⟩ := mem_namesList.mp hx
      exact mem_namesList.mpr ⟨b, hdrop hb, hxb⟩

/-- **One parameter.**  Every match gives it what its declaration allows, by induction over the
    pattern. -/
theorem alwaysSupplies (hparams : IsDeclared params) (hd : params.lookup x = some d) (p : Node) :
    AlwaysSupplies params d x p := by
  have hdeclares : Declares x d := .of_lookup hparams hd
  induction p using Node.induction with
  | step p hfunc hargs _ =>
    intro n m hp hn hm hname
    obtain ⟨-, hfwf, hawf⟩ := (wellFormed_iff p).mp hp
    obtain ⟨-, hgwf, hbwf⟩ := (wellFormed_iff n).mp hn
    cases hident : p.isIdent with
    | true =>
      obtain ⟨s, hs⟩ := kind_of_isIdent hident
      rw [matchNode_name hs, Except.ok.injEq] at hm
      rw [names_name hs]
      by_cases hx : x = s
      · subst hx
        refine supplies_of_matchName hd hdeclares (fun hkind => ?_) hm
        have hmem : x ∈ n.names := by
          rw [names_name hkind]
          exact mem_singleton_self x
        obtain ⟨htakes, hsingles⟩ := hname hmem
        rw [singles_name hs] at hsingles
        exact ⟨htakes, by simpa using hsingles⟩
      · exact .of_lookup_eq_none (by simpa using hx) (lookup_of_matchName hm hx)
    | false =>
      rw [TakesOwnName, singles_of_isIdent_eq_false hident] at hname
      simp only [mem_append, not_or] at hname
      rw [names_of_isIdent_eq_false hident]
      obtain ⟨hclass, ⟨hpf, hnf, hnargs, htext, rfl⟩ | ⟨-, bs, hfuncs, hmatch⟩⟩ :=
        hparams.neverAbsent.matchNode_cases hident hm
      · -- a pattern that prints like a childless node has no parts
        have halike := alike_of_text_eq hp hn hclass hpf hnf hnargs htext
        obtain ⟨-, -, hlist⟩ := (alike_iff p n).mp halike
        rw [hnargs, alikeList_iff, forall₂_nil_right_iff] at hlist
        rw [hpf, hlist]
        exact supplies_nil
      · have hmem : ∀ {y : String}, y ∈ namesOption n.func ++ namesList n.args →
            n.isIdent = false → y ∈ n.names := by
          intro y hy hni
          rwa [names_of_isIdent_eq_false hni]
        have hni : n.isIdent = false := by
          by_contra hni
          obtain ⟨s, hs⟩ := kind_of_isIdent (Bool.not_eq_false _ ▸ hni)
          have hpname : p.kind.className = "Identifier" := by rw [hclass, hs]; rfl
          obtain ⟨info, kind, func, args, type⟩ := p
          cases kind with
          | binary cls op => cases cls <;> simp [Kind.className, Binary.className] at hpname
          | _ => simp_all [Kind.className, isIdent, Node.name?]
        have hbs : Supplies d x (namesOption p.func) bs := by
          rcases hfuncs with ⟨hpf, -, rfl⟩ | ⟨f, g, hpf, hng, hfg⟩
          · rw [hpf]
            exact supplies_nil
          · rw [hpf] at hname ⊢
            refine hfunc f hpf g bs (hfwf f hpf) (hgwf g hng) hfg fun hx => ?_
            obtain ⟨htakes, hsingles⟩ := hname (hmem (mem_append_left _ (by rwa [hng])) hni)
            exact ⟨htakes, fun hr => (hsingles hr).1⟩
        refine supplies_of_matchArgs hd hdeclares hargs hawf hbwf (fun hx => ?_) hbs hmatch
        obtain ⟨htakes, hsingles⟩ := hname (hmem (mem_append_right _ hx) hni)
        exact ⟨htakes, fun hr => (hsingles hr).2⟩

/-- **A match binds every parameter of its pattern to a node that its declaration allows**: a node of
    its class, of one of its alternatives, or a list of nodes of the class of its elements.  The
    exception is a parameter whose own name stands in the node while its declaration does not take
    names, or while it is a run in the place of a single node. -/
theorem bound_of_matchNode {p n : Node} {m : Bindings} (hparams : IsDeclared params)
    (hp : p.wellFormed = true) (hn : n.wellFormed = true)
    (hm : matchNode params p n = .ok (some m)) :
    ∀ x ∈ p.names, ∀ d, params.lookup x = some d → (x ∈ n.names → TakesOwnName params p x d) →
      ∃ b, m.lookup x = some b ∧ Satisfies d b := by
  intro x hx d hd hname
  have hsupplies : Supplies d x p.names m := alwaysSupplies hparams hd p n m hp hn hm hname
  obtain ⟨b, hb⟩ := Option.isSome_iff_exists.mp (hsupplies.bound hx)
  exact ⟨b, hb, hsupplies.allowed b hb⟩

def typedParameter (name : String) (type : Node) : Node :=
  Node.ofBinary .typed ":" (Node.ident name) type

/-- `a: Call | ListLiteral`, `b` and `xs: [IntegerLiteral]`. -/
def mixedParameters : Parameters :=
  [("a", typedParameter "a" (Node.ofBinary .bitOr "|" (Node.ident "Call") (Node.ident "ListLiteral"))),
    ("b", Node.ident "b"),
    ("xs", typedParameter "xs" (Node.make .list none [Node.ident "IntegerLiteral"]))]

/-- The pattern `f(a, xs, b)`. -/
def mixedPattern : Node :=
  Node.ofCall (Node.ident "f") [Node.ident "a", Node.ident "xs", Node.ident "b"]

/-- The node `f([], 1, 2, b)`; a parameter is met by its own name. -/
def mixedNode : Node :=
  Node.ofCall (Node.ident "f")
    [Node.make .list none [], Node.ofDigits "1", Node.ofDigits "2", Node.ident "b"]

def mixedBindings : Bindings :=
  [("a", Node.make .list none []),
    ("xs", Node.make .list none [Node.ofDigits "1", Node.ofDigits "2"]), ("b", Node.ident "b")]

theorem bound_of_mixedPattern :
    matchNode mixedParameters mixedPattern mixedNode = .ok (some mixedBindings) ∧
      ∀ d ∈ mixedParameters, ∃ b, mixedBindings.lookup d.1 = some b ∧ Satisfies d.2 b := by
  have hparams : IsDeclared mixedParameters := by
    intro d hd
    simp only [mixedParameters, List.mem_cons, List.not_mem_nil, or_false] at hd
    rcases hd with rfl | rfl | rfl
    · refine .typed rfl rfl (.alternatives rfl fun t ht => ?_)
      have ht' : t = Node.ident "Call" ∨ t = Node.ident "ListLiteral" := by
        simpa [Node.ofBinary, Node.make] using ht
      rcases ht' with rfl | rfl
      · exact .one rfl (by decide)
      · exact .one rfl (by decide)
    · exact .untyped rfl
    · exact .run rfl rfl rfl rfl rfl
  have hm : matchNode mixedParameters mixedPattern mixedNode = .ok (some mixedBindings) := rfl
  have hbound := bound_of_matchNode hparams (by decide) (by decide) hm
  refine ⟨hm, fun d hd => ?_⟩
  simp only [mixedParameters, List.mem_cons, List.not_mem_nil, or_false] at hd
  rcases hd with rfl | rfl | rfl
  · exact hbound "a" (by decide) _ rfl fun h => absurd h (by decide)
  · exact hbound "b" (by decide) _ rfl fun _ => ⟨.untyped rfl, fun h => absurd h (by decide)⟩
  · exact hbound "xs" (by decide) _ rfl fun h => absurd h (by decide)

/-- `s.join(v)` with `s: StringLiteral` matches a call of `join` on the variable `s`, which is no
    literal, and leaves the parameter without a node.  A run of numbers takes its own name in. -/
theorem unbound_by_own_name :
    let join := Node.ofCall (Node.ofBinary .attribute "." (Node.ident "s") (Node.ident "join"))
      [Node.ident "v"]
    let params := [("s", typedParameter "s" (Node.ident "StringLiteral")), ("v", Node.ident "v")]
    let numbers := typedParameter "xs" (Node.make .list none [Node.ident "IntegerLiteral"])
    let call := Node.ofCall (Node.ident "f") [Node.ident "xs"]
    matchNode params join join = .ok (some [("v", Node.ident "v")]) ∧ "s" ∈ join.names ∧
      matchNode [("xs", numbers)] call call =
        .ok (some [("xs", Node.make .list none [Node.ident "xs"])]) ∧
      ¬Satisfies numbers (Node.make .list none [Node.ident "xs"]) := by
  refine ⟨rfl, by decide, rfl, ?_⟩
  intro h
  cases h with
  | untyped h => cases h
  | typed htype h =>
    cases htype
    cases h with
    | one hkind _ => cases hkind
    | alternative hkind _ _ => cases hkind
  | run htype _ hargs _ h =>
    cases htype
    cases hargs
    cases h (Node.ident "xs") (List.mem_singleton_self _) with
    | @one _ _ name hkind hclass =>
      obtain rfl : "IntegerLiteral" = name := Kind.name.inj hkind
      exact absurd (admits_of_isOfClass hclass) (by decide)
    | alternative hkind _ _ => cases hkind

end Cppward.Macro
