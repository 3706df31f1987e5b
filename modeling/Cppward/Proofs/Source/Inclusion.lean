import Cppward.Source.Include
import Mathlib.Data.List.Basic

namespace Cppward.Source

open List

/-!
# Modules in place of includes

Where the modules that a program includes are known, the program stands for one list of statements.
Every element of that list has an origin: it is a statement of the program or of a module, or the
boundary behind the statements of a module.

* `Library`, `Reaches` — the modules that can be included, and those that statements get to.
* `Inlined` — the list, as it is made from left to right with the names that were met before.
* `Expansion` — the list as it is meant: every module that is reached stands in it once, in front of
  the statement that was the first to ask for it.
* `expansion_of_inlined` — the list is as it is meant.
-/

/-- The modules that can be included: by name, their files and their statements. -/
abbrev Library := String → Option (Header × List Node)

/-- The statement includes the module with a name. -/
def Asks (n : Node) (name : String) : Prop :=
  n.isCallOf "include" = true ∧ includedName n = .ok name

/-- The modules that statements include, those that these modules include, and so on. -/
inductive Reaches (lib : Library) (statements : List Node) : String → Prop
  | direct {n : Node} {name : String} (hn : n ∈ statements) (hasks : Asks n name) :
      Reaches lib statements name
  | through {m name : String} {h : Header} {own : List Node} {n : Node}
      (hm : Reaches lib statements m) (hlib : lib m = some (h, own)) (hn : n ∈ own)
      (hasks : Asks n name) : Reaches lib statements name

/-- Where an element of an expanded program comes from. -/
inductive Origin where
  /-- A statement of a module, or of the program itself. -/
  | own (module : Option String)
  /-- The boundary behind the statements of a module. -/
  | boundary (module : String)
  deriving DecidableEq

/-- What has the origin belongs to the module with a name. -/
def Origin.IsOf (o : Origin) (name : String) : Prop := o = .own (some name) ∨ o = .boundary name

structure Element where
  origin : Origin
  node : Node

/-- Marks an element with the files that it belongs to. -/
def Element.mark (h : Header) (x : Element) : Element := { x with node := setHeader h x.node }

/-- The statements of a module, or of the program itself, in an expanded program. -/
def ownOf (who : Option String) (xs : List Element) : List Node :=
  (xs.filter (·.origin == .own who)).map Element.node

/-- The elements that stand for the statements of `who`, where the modules of the first list of names
    were met before, and those of the second have been met in the end. -/
inductive Inlined (lib : Library) :
    Option String → List String → List Node → List String → List Element → Prop
  | nil {who : Option String} {seen : List String} : Inlined lib who seen [] seen []
  | plain {who : Option String} {seen seen' : List String} {n : Node} {ns : List Node}
      {xs : List Element} (hn : n.isCallOf "include" = false)
      (hrest : Inlined lib who seen ns seen' xs) :
      Inlined lib who seen (n :: ns) seen' (⟨.own who, n⟩ :: xs)
  | known {who : Option String} {seen seen' : List String} {n : Node} {ns : List Node}
      {xs : List Element} {name : String} (hasks : Asks n name) (hname : name ∈ seen)
      (hrest : Inlined lib who seen ns seen' xs) :
      Inlined lib who seen (n :: ns) seen' (⟨.own who, n⟩ :: xs)
  | fresh {who : Option String} {seen seen₁ seen₂ : List String} {n : Node} {ns own : List Node}
      {inside xs : List Element} {name : String} {h : Header} (hasks : Asks n name)
      (hname : name ∉ seen) (hlib : lib name = some (h, own))
      (hinside : Inlined lib (some name) (name :: seen) own seen₁ inside)
      (hrest : Inlined lib who seen₁ ns seen₂ xs) :
      Inlined lib who seen (n :: ns) seen₂
        (inside.map (Element.mark h) ++
          ⟨.boundary name, moduleBoundary⟩ :: ⟨.own who, n⟩ :: xs)

/-- A call that ends the statements of a module. -/
def IsBoundary (n : Node) : Prop :=
  n.isCallOf "ceto_private_module_boundary" = true ∧ n.args = []

/-- All that belongs to the module stands in one piece, which is followed by the only boundary of the
    module and by a statement that asks for it.  No statement in front of the piece does so. -/
structure StandsFirst (name : String) (xs before inside : List Element) (boundary call : Element)
    (after : List Element) : Prop where
  eq : xs = before ++ inside ++ boundary :: call :: after
  boundary_origin : boundary.origin = .boundary name
  boundary_node : IsBoundary boundary.node
  call_asks : Asks call.node name
  call_origin : ∃ who, call.origin = .own who ∧ who ≠ some name
  before_asks : ∀ x ∈ before, ¬Asks x.node name
  before_origin : ∀ x ∈ before, ¬x.origin.IsOf name
  after_origin : ∀ x ∈ after, ¬x.origin.IsOf name
  inside_origin : ∀ x ∈ inside, x.origin ≠ .boundary name

/-- What a program with its includes in place is meant to be. -/
structure Expansion (lib : Library) (main : List Node) (xs : List Element) : Prop where
  /-- The statements of the program are there, in their order. -/
  own : ownOf none xs = main
  /-- Nothing else is there but modules that the program reaches. -/
  reaches : ∀ x ∈ xs, x.origin = .own none ∨ ∃ name, x.origin.IsOf name ∧ Reaches lib main name
  /-- The statements of every module that is reached are there once, in their order. -/
  once : ∀ name, Reaches lib main name → ∃ h own, lib name = some (h, own) ∧
    ownOf (some name) xs = setHeaders h own
  /-- They stand in one piece before the statement that was the first to ask for the module. -/
  first : ∀ name, Reaches lib main name →
    ∃ before inside boundary call after, StandsFirst name xs before inside boundary call after

/-! ### Marks -/

section Marks

variable {h h' : Header} {n : Node} {name word : String}

theorem setHeaders_eq_map (h : Header) (ns : List Node) : setHeaders h ns = ns.map (setHeader h) := by
  induction ns with
  | nil => rfl
  | cons n ns ih => rw [setHeaders, ih, map_cons]

theorem setHeader_cases (h : Header) (n : Node) :
    (n.info.header.isSome = true ∧ setHeader h n = n) ∨
      setHeader h n = { n with
        info := { n.info with header := some h }
        func := n.func.map (setHeader h)
        args := n.args.map (setHeader h) } := by
  obtain ⟨⟨id, loc, header⟩, kind, func, args, type⟩ := n
  cases header with
  | some _ => exact .inl ⟨rfl, by simp [setHeader]⟩
  | none =>
    refine .inr ?_
    cases func <;> simp [setHeader, setHeaders_eq_map, setHeaderOption]

theorem setHeader_setHeader (h h' : Header) (n : Node) :
    setHeader h' (setHeader h n) = setHeader h n := by
  have hkeep : ∀ m : Node, m.info.header.isSome = true → setHeader h' m = m := by
    rintro ⟨⟨id, loc, _ | header⟩, kind, func, args, type⟩ hm
    · cases hm
    · simp [setHeader]
  rcases setHeader_cases h n with ⟨hsome, heq⟩ | heq
  · rw [heq]
    exact hkeep n hsome
  · rw [heq]
    exact hkeep _ rfl

@[simp]
theorem kind_setHeader : (setHeader h n).kind = n.kind := by
  rcases setHeader_cases h n with ⟨-, heq⟩ | heq <;> rw [heq]

@[simp]
theorem name?_setHeader : (setHeader h n).name? = n.name? := by
  rw [Node.name?, kind_setHeader, Node.name?]

@[simp]
theorem isCallOf_setHeader : (setHeader h n).isCallOf word = n.isCallOf word := by
  rcases setHeader_cases h n with ⟨-, heq⟩ | heq
  · rw [heq]
  · have hfunc : (n.func.map (setHeader h)).bind Node.name? = n.func.bind Node.name? := by
      cases n.func <;> simp
    rw [heq]
    simp only [Node.isCallOf, Node.isCall, Node.funcName?, hfunc]

theorem includedName_setHeader : includedName (setHeader h n) = includedName n := by
  rcases setHeader_cases h n with ⟨-, heq⟩ | heq
  · rw [heq]
  · rw [heq, includedName, includedName]
    match n.args with
    | [] => rfl
    | [arg] => simp
    | _ :: _ :: _ => rfl

@[simp]
theorem asks_setHeader : Asks (setHeader h n) name ↔ Asks n name := by
  rw [Asks, Asks, isCallOf_setHeader, includedName_setHeader]

theorem IsBoundary.setHeader (hn : IsBoundary n) : IsBoundary (setHeader h n) := by
  refine ⟨isCallOf_setHeader.trans hn.1, ?_⟩
  rcases setHeader_cases h n with ⟨-, heq⟩ | heq <;> simp [heq, hn.2]

theorem Asks.unique {name' : String} (hn : Asks n name) (hn' : Asks n name') : name = name' :=
  Except.ok.inj (hn.2.symm.trans hn'.2)

theorem isBoundary_moduleBoundary : IsBoundary moduleBoundary := ⟨by decide, rfl⟩

theorem not_asks_moduleBoundary : ¬Asks moduleBoundary name := fun hasks =>
  absurd hasks.1 (by decide)

end Marks

/-! ### Names that are reached -/

section Reaching

variable {lib : Library} {ns ns' own : List Node} {m name : String} {h : Header}

theorem Reaches.mono (hsub : ns ⊆ ns') (hm : Reaches lib ns m) : Reaches lib ns' m := by
  induction hm with
  | direct hn hasks => exact .direct (hsub hn) hasks
  | through _ hlib hn hasks ih => exact .through ih hlib hn hasks

theorem Reaches.trans (hname : Reaches lib ns name) (hlib : lib name = some (h, own))
    (hm : Reaches lib own m) : Reaches lib ns m := by
  induction hm with
  | direct hn hasks => exact .through hname hlib hn hasks
  | through _ hlib hn hasks ih => exact .through ih hlib hn hasks

end Reaching

/-! ### What is in the list -/

section Lists

variable {lib : Library} {who : Option String} {seen seen' : List String} {ns : List Node}
  {xs ys : List Element} {name : String} {h : Header}

theorem ownOf_append (xs ys : List Element) : ownOf who (xs ++ ys) = ownOf who xs ++ ownOf who ys := by
  simp [ownOf]

theorem ownOf_cons (x : Element) (xs : List Element) :
    ownOf who (x :: xs) = if x.origin = .own who then x.node :: ownOf who xs else ownOf who xs := by
  by_cases hx : x.origin = .own who <;> simp [ownOf, hx]

theorem ownOf_eq_nil (hxs : ∀ x ∈ xs, x.origin ≠ .own who) : ownOf who xs = [] := by
  simpa [ownOf] using hxs

theorem ownOf_map_mark (h : Header) (xs : List Element) :
    ownOf who (xs.map (Element.mark h)) = (ownOf who xs).map (setHeader h) := by
  simp only [ownOf, filter_map, map_map]
  rfl

theorem Inlined.subset (hxs : Inlined lib who seen ns seen' xs) : seen ⊆ seen' := by
  induction hxs with
  | nil => exact List.Subset.refl _
  | plain _ _ ih | known _ _ _ ih => exact ih
  | fresh _ _ _ _ _ ihinside ihrest =>
    exact List.Subset.trans (subset_of_cons_subset ihinside) ihrest

/-- An element is a statement of `who`, or belongs to a module that was met on the way. -/
theorem Inlined.origin (hxs : Inlined lib who seen ns seen' xs) : ∀ x ∈ xs,
    x.origin = .own who ∨
      ∃ m, x.origin.IsOf m ∧ m ∉ seen ∧ m ∈ seen' ∧ Reaches lib ns m := by
  induction hxs with
  | nil => simp
  | plain _ _ ih | known _ _ _ ih =>
    intro x hx
    rcases mem_cons.mp hx with rfl | hx
    · exact .inl rfl
    · refine (ih x hx).imp id ?_
      rintro ⟨m, hof, hm, hm', hreach⟩
      exact ⟨m, hof, hm, hm', hreach.mono (subset_cons_self ..)⟩
  | @fresh who seen seen₁ seen₂ n ns own inside xs name h hasks hname hlib hinside hrest ihinside
      ihrest =>
    have hdirect : Reaches lib (n :: ns) name := .direct mem_cons_self hasks
    have hseen : seen ⊆ seen₁ := subset_of_cons_subset hinside.subset
    have hmet : name ∈ seen₂ := hrest.subset (hinside.subset mem_cons_self)
    intro x hx
    simp only [mem_append, mem_map, mem_cons] at hx
    rcases hx with ⟨y, hy, rfl⟩ | rfl | rfl | hx
    · rcases ihinside y hy with hof | ⟨m, hof, hm, hm', hreach⟩
      · exact .inr ⟨name, .inl hof, hname, hmet, hdirect⟩
      · exact .inr ⟨m, hof, fun hseen => hm (mem_cons_of_mem name hseen), hrest.subset hm',
          hdirect.trans hlib hreach⟩
    · exact .inr ⟨name, .inr rfl, hname, hmet, hdirect⟩
    · exact .inl rfl
    · refine (ihrest x hx).imp id ?_
      rintro ⟨m, hof, hm, hm', hreach⟩
      exact ⟨m, hof, fun hmem => hm (hseen hmem), hm', hreach.mono (subset_cons_self ..)⟩

theorem Origin.IsOf.unique {o : Origin} {m : String} (hm : o.IsOf m) (hname : o.IsOf name) :
    m = name := by
  rcases hm with rfl | rfl <;> rcases hname with hname | hname <;> cases hname <;> rfl

/-- Nothing of a module that was met before is added, its own statements aside. -/
theorem Inlined.not_isOf (hxs : Inlined lib who seen ns seen' xs) (hname : name ∈ seen)
    (hwho : who ≠ some name) : ∀ x ∈ xs, ¬x.origin.IsOf name := by
  intro x hx hof
  rcases hxs.origin x hx with heq | ⟨m, hofm, hm, -, -⟩
  · rw [heq] at hof
    rcases hof with hof | hof
    · exact hwho (Origin.own.inj hof)
    · cases hof
  · exact hm (hofm.unique hof ▸ hname)

theorem Inlined.ne_boundary (hxs : Inlined lib who seen ns seen' xs) (hname : name ∈ seen) :
    ∀ x ∈ xs, x.origin ≠ .boundary name := by
  intro x hx hof
  rcases hxs.origin x hx with heq | ⟨m, hofm, hm, -, -⟩
  · rw [hof] at heq
    cases heq
  · rw [hof] at hofm
    rcases hofm with hofm | hofm
    · cases hofm
    · exact hm (Origin.boundary.inj hofm ▸ hname)

/-- The statements of `who` are there in their order. -/
theorem Inlined.ownOf_eq (hxs : Inlined lib who seen ns seen' xs)
    (hwho : ∀ name, who = some name → name ∈ seen) : ownOf who xs = ns := by
  induction hxs with
  | nil => rfl
  | plain _ _ ih | known _ _ _ ih =>
    rw [ownOf_cons, if_pos rfl, ih hwho]
  | @fresh who seen seen₁ seen₂ n ns own inside xs name h hasks hname hlib hinside hrest _ ihrest =>
    have hsub : seen ⊆ seen₁ := subset_of_cons_subset hinside.subset
    have hne : who ≠ some name := fun heq => hname (hwho name heq)
    have hin : ownOf who inside = [] := by
      refine ownOf_eq_nil fun x hx heq => ?_
      rcases hinside.origin x hx with hof | ⟨m, hof, hm, -, -⟩
      · exact hne (Origin.own.inj (heq.symm.trans hof))
      · rw [heq] at hof
        rcases hof with hof | hof
        · exact hm (mem_cons_of_mem name (hwho m (Origin.own.inj hof)))
        · cases hof
    rw [ownOf_append, ownOf_map_mark, hin, ownOf_cons, if_neg (by simp), ownOf_cons, if_pos rfl,
      ihrest fun name' hname' => hsub (hwho name' hname')]
    rfl

/-- What an element of the list asks for has been met in the end. -/
theorem Inlined.mem_of_asks (hxs : Inlined lib who seen ns seen' xs) :
    ∀ x ∈ xs, ∀ m, Asks x.node m → m ∈ seen' := by
  induction hxs with
  | nil => simp
  | plain hn _ ih =>
    intro x hx m hasks
    rcases mem_cons.mp hx with rfl | hx
    · rw [hasks.1] at hn
      cases hn
    · exact ih x hx m hasks
  | known hknown hname hrest ih =>
    intro x hx m hasks
    rcases mem_cons.mp hx with rfl | hx
    · exact hrest.subset (hknown.unique hasks ▸ hname)
    · exact ih x hx m hasks
  | fresh hfresh _ _ hinside hrest ihinside ihrest =>
    intro x hx m hasks
    simp only [mem_append, mem_map, mem_cons] at hx
    rcases hx with ⟨y, hy, rfl⟩ | rfl | rfl | hx
    · exact hrest.subset (ihinside y hy m (asks_setHeader.mp hasks))
    · exact absurd hasks not_asks_moduleBoundary
    · exact hrest.subset (hinside.subset (hfresh.unique hasks ▸ mem_cons_self))
    · exact ihrest x hx m hasks

theorem Inlined.exists_own (hxs : Inlined lib who seen ns seen' xs) :
    ∀ n ∈ ns, ⟨.own who, n⟩ ∈ xs := by
  induction hxs with
  | nil => simp
  | plain _ _ ih | known _ _ _ ih =>
    intro m hm
    rcases mem_cons.mp hm with rfl | hm
    · exact mem_cons_self
    · exact mem_cons_of_mem _ (ih m hm)
  | fresh _ _ _ _ _ _ ihrest =>
    intro m hm
    simp only [mem_append, mem_cons]
    rcases mem_cons.mp hm with rfl | hm
    · exact .inr (.inr (.inl rfl))
    · exact .inr (.inr (.inr (ihrest m hm)))

/-- A module that was met on the way is in the library, and what it asks for has been met. -/
theorem Inlined.closed (hxs : Inlined lib who seen ns seen' xs) : ∀ m ∈ seen', m ∉ seen →
    ∃ h own, lib m = some (h, own) ∧ ∀ n ∈ own, ∀ name, Asks n name → name ∈ seen' := by
  induction hxs with
  | nil => exact fun m hm hm' => absurd hm hm'
  | plain _ _ ih | known _ _ _ ih => exact ih
  | @fresh who seen seen₁ seen₂ n ns own inside xs name h hasks hname hlib hinside hrest ihinside
      ihrest =>
    intro m hm hm'
    by_cases hin : m ∈ seen₁
    · by_cases heq : m = name
      · subst heq
        exact ⟨h, own, hlib, fun n hn name hasks =>
          hrest.subset (hinside.mem_of_asks _ (hinside.exists_own n hn) name hasks)⟩
      · obtain ⟨h', own', hlib', hclosed⟩ := ihinside m hin (by simp [heq, hm'])
        exact ⟨h', own', hlib', fun n hn name hasks => hrest.subset (hclosed n hn name hasks)⟩
    · exact ihrest m hm hin

end Lists

/-! ### Places -/

section Places

variable {lib : Library} {who : Option String} {seen seen' : List String} {ns main : List Node}
  {xs ys before inside after : List Element} {x boundary call : Element} {name : String} {h : Header}

theorem StandsFirst.prepend (hxs : StandsFirst name xs before inside boundary call after)
    (hasks : ∀ y ∈ ys, ¬Asks y.node name) (horigin : ∀ y ∈ ys, ¬y.origin.IsOf name) :
    StandsFirst name (ys ++ xs) (ys ++ before) inside boundary call after :=
  { hxs with
    eq := by rw [hxs.eq]; simp
    before_asks := fun y hy => (mem_append.mp hy).elim (hasks y) (hxs.before_asks y)
    before_origin := fun y hy => (mem_append.mp hy).elim (horigin y) (hxs.before_origin y) }

theorem StandsFirst.append (hxs : StandsFirst name xs before inside boundary call after)
    (horigin : ∀ y ∈ ys, ¬y.origin.IsOf name) :
    StandsFirst name (xs ++ ys) before inside boundary call (after ++ ys) :=
  { hxs with
    eq := by rw [hxs.eq]; simp
    after_origin := fun y hy => (mem_append.mp hy).elim (hxs.after_origin y) (horigin y) }

theorem StandsFirst.mark (hxs : StandsFirst name xs before inside boundary call after) (h : Header) :
    StandsFirst name (xs.map (Element.mark h)) (before.map (Element.mark h))
      (inside.map (Element.mark h)) (boundary.mark h) (call.mark h) (after.map (Element.mark h)) where
  eq := by rw [hxs.eq]; simp
  boundary_origin := hxs.boundary_origin
  boundary_node := hxs.boundary_node.setHeader
  call_asks := asks_setHeader.mpr hxs.call_asks
  call_origin := hxs.call_origin
  before_asks := forall_mem_map.mpr fun y hy hasks => hxs.before_asks y hy (asks_setHeader.mp hasks)
  before_origin := forall_mem_map.mpr hxs.before_origin
  after_origin := forall_mem_map.mpr hxs.after_origin
  inside_origin := forall_mem_map.mpr hxs.inside_origin

/-- The module stands in the list once, before the statement that was the first to ask for it. -/
def Stands (lib : Library) (name : String) (xs : List Element) : Prop :=
  (∃ h own, lib name = some (h, own) ∧ ownOf (some name) xs = setHeaders h own) ∧
    ∃ before inside boundary call after, StandsFirst name xs before inside boundary call after

theorem Stands.prepend (hxs : Stands lib name xs) (ys : List Element) (hasks : ∀ y ∈ ys, ¬Asks y.node name)
    (horigin : ∀ y ∈ ys, ¬y.origin.IsOf name) : Stands lib name (ys ++ xs) := by
  obtain ⟨⟨h, own, hlib, hown⟩, before, inside, boundary, call, after, hfirst⟩ := hxs
  refine ⟨⟨h, own, hlib, ?_⟩, _, _, _, _, _, hfirst.prepend hasks horigin⟩
  rw [ownOf_append, ownOf_eq_nil fun y hy heq => horigin y hy (.inl heq), hown]
  rfl

theorem Stands.append (hxs : Stands lib name xs) (horigin : ∀ y ∈ ys, ¬y.origin.IsOf name) :
    Stands lib name (xs ++ ys) := by
  obtain ⟨⟨h, own, hlib, hown⟩, before, inside, boundary, call, after, hfirst⟩ := hxs
  refine ⟨⟨h, own, hlib, ?_⟩, _, _, _, _, _, hfirst.append horigin⟩
  rw [ownOf_append, ownOf_eq_nil fun y hy heq => horigin y hy (.inl heq), hown, append_nil]

/-- The marks of a module that includes it do not change a module. -/
theorem Stands.mark (hxs : Stands lib name xs) (h : Header) :
    Stands lib name (xs.map (Element.mark h)) := by
  obtain ⟨⟨h', own, hlib, hown⟩, before, inside, boundary, call, after, hfirst⟩ := hxs
  refine ⟨⟨h', own, hlib, ?_⟩, _, _, _, _, _, hfirst.mark h⟩
  rw [ownOf_map_mark, hown, setHeaders_eq_map, map_map]
  exact map_congr_left fun n _ => setHeader_setHeader h' h n

/-- **Once, and first.**  Every module that is met on the way stands in the list once. -/
theorem Inlined.stands (hxs : Inlined lib who seen ns seen' xs)
    (hwho : ∀ name, who = some name → name ∈ seen) :
    ∀ m ∈ seen', m ∉ seen → Stands lib m xs := by
  have hown : ∀ {m : String} {seen : List String} {who : Option String},
      (∀ name, who = some name → name ∈ seen) → m ∉ seen → ¬(Origin.own who).IsOf m := by
    rintro m seen who hwho hm (hof | hof)
    · exact hm (hwho m (Origin.own.inj hof))
    · cases hof
  induction hxs with
  | nil => exact fun m hm hm' => absurd hm hm'
  | plain hn _ ih =>
    intro m hm hm'
    refine (ih hwho m hm hm').prepend [_] ?_ (by simpa using hown hwho hm')
    rintro _ hy hasks
    rw [mem_singleton.mp hy] at hasks
    rw [hasks.1] at hn
    cases hn
  | known hasks hname _ ih =>
    intro m hm hm'
    refine (ih hwho m hm hm').prepend [_] ?_ (by simpa using hown hwho hm')
    rintro _ hy hasks'
    rw [mem_singleton.mp hy] at hasks'
    exact hm' (hasks.unique hasks' ▸ hname)
  | @fresh who seen seen₁ seen₂ n ns own inside xs name h hasks hname hlib hinside hrest ihinside
      ihrest =>
    have hsub : seen ⊆ seen₁ := subset_of_cons_subset hinside.subset
    have hmet : name ∈ seen₁ := hinside.subset mem_cons_self
    have hne : who ≠ some name := fun heq => hname (hwho name heq)
    have hwho₁ : ∀ name, who = some name → name ∈ seen₁ := fun _ heq => hsub (hwho _ heq)
    intro m hm hm'
    by_cases hin : m ∈ seen₁
    · -- what follows the module belongs to others
      have hrestOf : ∀ y ∈ xs, ¬y.origin.IsOf m :=
        hrest.not_isOf hin fun heq => hm' (hwho m heq)
      by_cases heq : m = name
      · subst heq
        have hafter : ownOf (some m) xs = [] :=
          ownOf_eq_nil fun y hy heq => hrestOf y hy (.inl heq)
        refine ⟨⟨h, own, hlib, ?_⟩, [], inside.map (Element.mark h), ⟨.boundary m, moduleBoundary⟩,
          ⟨.own who, n⟩, xs, ?_⟩
        · rw [ownOf_append, ownOf_map_mark, hinside.ownOf_eq (by simp), ownOf_cons,
            if_neg (by simp), ownOf_cons, if_neg (by simpa using hne), hafter, append_nil,
            setHeaders_eq_map]
        · exact {
            eq := rfl
            boundary_origin := rfl
            boundary_node := isBoundary_moduleBoundary
            call_asks := hasks
            call_origin := ⟨who, rfl, hne⟩
            before_asks := by simp
            before_origin := by simp
            after_origin := hrestOf
            inside_origin := forall_mem_map.mpr (hinside.ne_boundary mem_cons_self) }
      · have hstands := (ihinside (by simp) m hin (by simp [heq, hm'])).mark h
        refine hstands.append ?_
        simp only [mem_cons, forall_eq_or_imp]
        refine ⟨?_, hown hwho hm', hrestOf⟩
        rintro (hof | hof)
        · cases hof
        · exact heq (Origin.boundary.inj hof).symm
    · -- the statements up to here ask only for modules that were met
      have hbefore : ∀ y ∈ inside.map (Element.mark h) ++ [⟨.boundary name, moduleBoundary⟩,
          ⟨.own who, n⟩], ¬Asks y.node m ∧ ¬y.origin.IsOf m := by
        intro y hy
        simp only [mem_append, mem_map, mem_cons, not_mem_nil, or_false] at hy
        rcases hy with ⟨z, hz, rfl⟩ | rfl | rfl
        · refine ⟨fun hz' => hin (hinside.mem_of_asks z hz m (asks_setHeader.mp hz')), fun hof => ?_⟩
          rcases hinside.origin z hz with heq | ⟨m', hof', -, hm', -⟩
          · exact hin (Origin.IsOf.unique (.inl heq) hof ▸ hmet)
          · exact hin (hof'.unique hof ▸ hm')
        · refine ⟨not_asks_moduleBoundary, ?_⟩
          rintro (hof | hof)
          · cases hof
          · exact hin (Origin.boundary.inj hof ▸ hmet)
        · exact ⟨fun hasks' => hin (hasks.unique hasks' ▸ hmet), hown hwho₁ hin⟩
      have hstands := (ihrest hwho₁ m hm hin).prepend _ (fun y hy => (hbefore y hy).1)
        fun y hy => (hbefore y hy).2
      simpa using hstands

/-- **The list is as it is meant.** -/
theorem expansion_of_inlined (hxs : Inlined lib none [] main seen' xs) : Expansion lib main xs := by
  have hmet : ∀ name, Reaches lib main name → name ∈ seen' := by
    intro name hname
    induction hname with
    | direct hn hasks => exact hxs.mem_of_asks _ (hxs.exists_own _ hn) _ hasks
    | through _ hlib hn hasks ih =>
      obtain ⟨h, own, hlib', hclosed⟩ := hxs.closed _ ih (not_mem_nil)
      cases hlib.symm.trans hlib'
      exact hclosed _ hn _ hasks
  have hstands : ∀ name, Reaches lib main name → Stands lib name xs := fun name hname =>
    hxs.stands (by simp) name (hmet name hname) (not_mem_nil)
  exact {
    own := hxs.ownOf_eq (by simp)
    reaches := fun x hx => (hxs.origin x hx).imp id fun ⟨m, hof, _, _, hreach⟩ => ⟨m, hof, hreach⟩
    once := fun name hname => (hstands name hname).1
    first := fun name hname => (hstands name hname).2 }

end Places

end Cppward.Source
