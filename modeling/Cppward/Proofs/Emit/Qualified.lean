import Cppward.Proofs.Emit.Run

namespace Cppward.Emit

open Analysis List Node Gen

/-!
# Qualified names

A chain `A.b.c` whose first name is neither a variable nor a class is meant as `A::b::c`.  If all links
are names, that is its code.  A template such as `c<int>` as the last of several links makes the
generator start over with the links in the opposite order, and one that is not the last is refused.

* `emitAttribute_chain_iff` — when the code of the links, in their order, is that of the access.
-/

variable {e : Emitter} {n first lhs rhs : Node} {links : List Node} {name code : String}
  {codes : List String} {cx : Context} {g g' : Generator} {k : Nat}

/-! ### Chains -/

/-- The tree of `first.l₁.l₂…`, with the links in the order of the source. -/
inductive IsChain (first : Node) : List Node → Node → Prop
  | start : IsChain first [] first
  | access {links : List Node} {lhs n : Node} {op : String} (rhs : Node) (h : IsChain first links lhs)
      (hkind : n.kind = .binary .attribute op) (hargs : n.args = [lhs, rhs]) :
      IsChain first (links ++ [rhs]) n

theorem not_isAttribute_of_name (h : first.name? = some name) : first.isAttribute = false := by
  unfold Node.name? at h
  unfold isAttribute binary?
  split at h <;> simp_all

theorem not_isIdent_of_isAttribute (h : n.isAttribute = true) : n.isIdent = false := by
  cases hname : n.name? with
  | none => rw [isIdent, hname]; rfl
  | some name => rw [not_isAttribute_of_name hname] at h; cases h

theorem chainOf_eq (h : IsChain first links n) (hfirst : first.isAttribute = false) :
    chainOf n = (first, links.reverse) := by
  induction h with
  | start =>
    obtain ⟨info, kind, func, args, type⟩ := first
    unfold chainOf
    split
    · simp [isAttribute, binary?] at hfirst
    · rfl
  | @access links lhs n op rhs _ hkind hargs ih =>
    obtain ⟨info, kind, func, args, type⟩ := n
    obtain rfl : kind = .binary .attribute op := hkind
    obtain rfl : args = [lhs, rhs] := hargs
    rw [chainOf, ih]
    simp

/-- A chain with at least one link is an access, of a name or of a shorter chain. -/
theorem IsChain.exists_access (h : IsChain first links n) (hlinks : links ≠ []) :
    ∃ lhs rhs, n.args = [lhs, rhs] ∧ (lhs = first ∧ links = [rhs] ∨ lhs.isAttribute = true) := by
  cases h with
  | start => exact absurd rfl hlinks
  | @access _ lhs _ op rhs h hkind hargs =>
    refine ⟨lhs, rhs, hargs, ?_⟩
    cases h with
    | start => exact .inl ⟨rfl, rfl⟩
    | access _ _ hkind _ => exact .inr (by simp [isAttribute, binary?, hkind])

/-- A chain with at least one link that has just been made: it has no label and no declared type. -/
structure IsNewChain (first : Node) (links : List Node) (n : Node) : Prop where
  chain : IsChain first links n
  kind : n.kind = .binary .attribute "."
  id : n.id = 0
  type : n.type = none

theorem IsNewChain.foldl (h : IsNewChain first links n) (rest : List Node) :
    IsNewChain first (links ++ rest) (rest.foldl (fun acc c =>
      { ofBinary .attribute "." acc c with info := { c.info with id := 0 } }) n) := by
  induction rest generalizing links n with
  | nil => simpa using h
  | cons c rest ih =>
    have hlink : IsNewChain first (links ++ [c])
        { ofBinary .attribute "." n c with info := { c.info with id := 0 } } :=
      ⟨h.chain.access c rfl rfl, rfl, rfl, rfl⟩
    simpa using ih hlink

theorem exists_ofChain? (a b : Node) (rest : List Node) :
    ∃ n, ofChain? (a :: b :: rest) = some n ∧ IsNewChain a (b :: rest) n := by
  have hstart : IsNewChain a [b]
      { ofBinary .attribute "." a b with info := { a.info with id := 0 } } :=
    ⟨IsChain.start.access b rfl rfl, rfl, rfl, rfl⟩
  exact ⟨_, rfl, hstart.foldl rest⟩

/-! ### The code of a chain -/

/-- The code of a link: a name stands for itself. -/
def linkCode (e : Emitter) (cx : Context) (link : Node) : Gen String :=
  match link.name? with
  | some name => pure name
  | none => e.node link cx

/-- If the target is not the name of a class, the first name of the chain decides. -/
theorem emitAttribute_eq (hargs : (g.program.current n).args = [lhs, rhs])
    (hclass : lhs.isIdent = true → g.program.lookupClass cx lhs = none) :
    emitAttribute e n cx g =
      (if lhs.isIdent || lhs.isAttribute then
        match (chainOf (g.program.current n)).1.name? with
        | some name =>
          if name != "self" then do
            if (← Gen.findDef (chainOf (g.program.current n)).1 (chainOf (g.program.current n)).1).isNone
            then qualifiedName e name (chainOf (g.program.current n)).2 cx
            else memberAccess e lhs rhs cx
          else memberAccess e lhs rhs cx
        | none => memberAccess e lhs rhs cx
      else memberAccess e lhs rhs cx) g := by
  unfold emitAttribute
  rw [current_bind, hargs]
  dsimp only
  split
  · rename_i hident
    have hlookup : Gen.lookupClass cx (some lhs) g = .ok (none, g) := by
      unfold Gen.lookupClass
      rw [bind_apply_of_ok program_apply, Option.bind_some, classNamed, hclass hident]
      rfl
    rw [bind_apply_of_ok hlookup]
    rfl
  · rfl

/-- A chain that starts with an unknown name is a qualified name. -/
theorem emitAttribute_eq_qualifiedName (hchain : IsChain first links (g.program.current n))
    (hlinks : links ≠ []) (hname : first.name? = some name) (hself : name ≠ "self")
    (hclass : g.program.lookupClass cx first = none)
    (hvar : Gen.findDef first first g = .ok (none, g)) :
    emitAttribute e n cx g = qualifiedName e name links.reverse cx g := by
  have hparts := chainOf_eq hchain (not_isAttribute_of_name hname)
  obtain ⟨lhs, rhs, hargs, hlhs⟩ := hchain.exists_access hlinks
  have hknown : lhs.isIdent = true → g.program.lookupClass cx lhs = none := by
    intro hident
    obtain ⟨rfl, -⟩ | hattribute := hlhs
    · exact hclass
    · rw [not_isIdent_of_isAttribute hattribute] at hident
      cases hident
  have haccess : (lhs.isIdent || lhs.isAttribute) = true := by
    obtain ⟨rfl, -⟩ | hattribute := hlhs
    · rw [isIdent, hname]; rfl
    · rw [hattribute, Bool.or_true]
  rw [emitAttribute_eq hargs hknown, if_pos haccess, hparts]
  dsimp only
  rw [hname]
  dsimp only
  rw [if_pos (bne_iff_ne.mpr hself), bind_apply_of_ok hvar]
  rfl

theorem emitAttribute_eq_memberAccess (hchain : IsChain first links (g.program.current n))
    (hlinks : links ≠ []) (hname : first.name? = none) (hfirst : first.isAttribute = false) :
    ∃ lhs rhs, emitAttribute e n cx g = memberAccess e lhs rhs cx g := by
  have hparts := chainOf_eq hchain hfirst
  obtain ⟨lhs, rhs, hargs, hlhs⟩ := hchain.exists_access hlinks
  have hknown : lhs.isIdent = true → g.program.lookupClass cx lhs = none := by
    intro hident
    obtain ⟨rfl, -⟩ | hattribute := hlhs
    · rw [isIdent, hname] at hident
      cases hident
    · rw [not_isIdent_of_isAttribute hattribute] at hident
      cases hident
  refine ⟨lhs, rhs, ?_⟩
  rw [emitAttribute_eq hargs hknown, hparts]
  dsimp only
  rw [hname]
  split <;> rfl

/-- The code of a member access starts with a parenthesis. -/
theorem memberAccess_eq_ok (h : memberAccess e lhs rhs cx g = .ok (code, g')) :
    ∃ rest, code.toList = '(' :: rest := by
  unfold memberAccess at h
  obtain ⟨target, g₁, -, h⟩ := bind_eq_ok.mp h
  obtain ⟨member, g₂, -, h⟩ := bind_eq_ok.mp h
  obtain ⟨rfl, -⟩ := Prod.mk.inj (pure_eq_ok.mp h)
  exact ⟨_, by simp only [String.toList_append]; rfl⟩

/-- A chain that was made of links that do not start with a name is an access of a member. -/
theorem node_of_newChain (hchain : IsNewChain first links n) (hlinks : links ≠ [])
    (hname : first.name? = none) (hfirst : first.isAttribute = false)
    (h : (emitter k).node n cx g = .ok (code, g')) : ∃ rest, code.toList = '(' :: rest := by
  cases k with
  | zero => cases h
  | succ k =>
    have hcurrent : g.program.current n = n := by
      simp [Program.current, Program.node?, hchain.id]
    obtain ⟨lhs, rhs, haccess⟩ : ∃ lhs rhs,
        emitAttribute (emitter k) n cx g = memberAccess (emitter k) lhs rhs cx g :=
      emitAttribute_eq_memberAccess (by rw [hcurrent]; exact hchain.chain) hlinks hname hfirst
    obtain ⟨_, _, hargs, -⟩ := hchain.chain.exists_access hlinks
    have hnode : (emitter (k + 1)).node n cx g = emitAttribute (emitter k) n cx g := by
      show emitNode (emitter k) n cx g = _
      unfold emitNode
      rw [current_bind, hcurrent, hchain.type]
      dsimp only
      unfold emitUntyped
      rw [hchain.kind]
      dsimp only
      unfold emitOperator
      rw [hargs]
    rw [hnode, haccess] at h
    exact memberAccess_eq_ok h

/-! ### The code of a qualified name -/

theorem mapM_linkCode (h : ∀ l ∈ links, l.isIdent = true) :
    links.mapM (linkCode e cx) = links.mapM fun l => Gen.need l.name? := by
  induction links with
  | nil => rfl
  | cons l links ih =>
    obtain ⟨hl, hlinks⟩ := forall_mem_cons.mp h
    obtain ⟨name, hname⟩ := Option.isSome_iff_exists.mp hl
    rw [mapM_cons, mapM_cons, ih hlinks, linkCode, hname]
    rfl

theorem isIdent_of_mapM_need {r : List String × Generator}
    (h : links.mapM (fun l => Gen.need l.name?) g = .ok r) : ∀ l ∈ links, l.isIdent = true := by
  induction links generalizing g r with
  | nil => simp
  | cons l links ih =>
    rw [mapM_cons] at h
    obtain ⟨name, g₁, hname, h⟩ := bind_eq_ok.mp h
    obtain ⟨names, g₂, hnames, -⟩ := bind_eq_ok.mp h
    have hl : l.isIdent = true := by rw [isIdent, (need_eq_ok.mp hname).1]; rfl
    exact forall_mem_cons.mpr ⟨hl, ih hnames⟩

/-- The codes of two or more links do not start with a parenthesis, if that of the first does not. -/
theorem toList_intercalate_ne {c d : String} (h : c.toList.head? ≠ some '(') (rest : List Char) :
    ("::".intercalate (c :: d :: codes)).toList ≠ '(' :: rest := by
  rw [String.intercalate_cons_cons, String.toList_append, String.toList_append]
  cases hc : c.toList with
  | nil => simp
  | cons x xs =>
    rw [hc] at h
    simpa using fun hx => absurd hx (by simpa using h)

/-- A qualified name that ends in a name has a code if all links are names. -/
theorem qualifiedName_of_name {front : List Node} {last : Node} (hlast : last.isIdent = true)
    (hcodes : (front.reverse ++ [last]).mapM (linkCode e cx) g = .ok (codes, g')) :
    qualifiedName e name (last :: front) cx g = .ok ("::".intercalate (name :: codes), g') ↔
      ∀ l ∈ front.reverse ++ [last], l.isIdent = true := by
  have hrun : qualifiedName e name (last :: front) cx = (do
      let names ← (front.reverse ++ [last]).mapM fun l => Gen.need l.name?
      return "::".intercalate (name :: names)) := by
    unfold qualifiedName
    rw [head?_cons, Option.map_some, hlast, reverse_cons]
    rfl
  rw [hrun]
  constructor
  · intro h
    obtain ⟨names, g₁, hnames, -⟩ := bind_eq_ok.mp h
    exact isIdent_of_mapM_need hnames
  · intro h
    rw [mapM_linkCode h] at hcodes
    rw [bind_apply_of_ok hcodes]
    rfl

/-- A qualified name that ends in a template starts over with the links in the opposite order. -/
theorem qualifiedName_of_template {front : List Node} {last : Node} (hlast : last.isIdent = false)
    (htemplate : last.isTemplate = true)
    (hcodes : (front.reverse ++ [last]).mapM (linkCode (emitter k) cx) g = .ok (codes, g'))
    (hplain : ∀ c ∈ codes, c.toList.head? ≠ some '(') :
    qualifiedName (emitter k) name (last :: front) cx g =
      .ok ("::".intercalate (name :: codes), g') ↔ front = [] := by
  have hname : last.name? = none := by
    rwa [isIdent, Option.isSome_eq_false_iff, Option.isNone_iff_eq_none] at hlast
  have hrun : qualifiedName (emitter k) name (last :: front) cx = (do
      let rest ← Gen.need (ofChain? (last :: front))
      return name ++ "::" ++ (← (emitter k).node rest cx)) := by
    unfold qualifiedName
    rw [head?_cons, Option.map_some, hlast]
    rfl
  rw [hrun]
  cases front with
  | nil =>
    have hsingle : linkCode (emitter k) cx last = (emitter k).node last cx := by
      rw [linkCode, hname]
    rw [reverse_nil, nil_append, mapM_cons, mapM_nil, hsingle] at hcodes
    obtain ⟨code, g₁, hcode, h⟩ := bind_eq_ok.mp hcodes
    obtain ⟨rfl, rfl⟩ := Prod.mk.inj (pure_eq_ok.mp h)
    have hchain : ofChain? [last] = some last := rfl
    rw [hchain, need_some, pure_bind, bind_apply_of_ok hcode]
    simp [String.intercalate_cons_cons, pure_eq_ok]
  | cons b rest =>
    obtain ⟨chain, hchain, hnew⟩ := exists_ofChain? last b rest
    simp only [reduceCtorEq, iff_false]
    intro h
    rw [hchain, need_some, pure_bind] at h
    obtain ⟨code, g₁, hcode, h⟩ := bind_eq_ok.mp h
    obtain ⟨hcode', -⟩ := Prod.mk.inj (pure_eq_ok.mp h)
    have hattribute : last.isAttribute = false := by
      obtain ⟨info, kind, func, args, type⟩ := last
      cases kind <;> simp_all [isTemplate, isAttribute, binary?]
    obtain ⟨tail, htail⟩ := node_of_newChain hnew (cons_ne_nil _ _) hname hattribute hcode
    have hlength := length_of_mapM hcodes
    obtain ⟨c, d, ds, rfl⟩ : ∃ c d ds, codes = c :: d :: ds := by
      match codes, hlength with
      | c :: d :: ds, _ => exact ⟨c, d, ds, rfl⟩
      | [_], h => simp at h
      | [], h => simp at h
    have hsame : "::".intercalate (c :: d :: ds) = code := by
      rw [String.intercalate_cons_cons] at hcode'
      exact (String.append_right_inj _).mp hcode'
    exact toList_intercalate_ne (hplain c mem_cons_self) tail (hsame ▸ htail)

/-- The code of a qualified name is that of its links in their order if there is one link only, or if
    all links are names; otherwise it is not. -/
theorem qualifiedName_eq_ok_iff (hlinks : links ≠ [])
    (hlink : ∀ l ∈ links, (l.isIdent || l.isTemplate) = true)
    (hcodes : links.mapM (linkCode (emitter k) cx) g = .ok (codes, g'))
    (hplain : ∀ c ∈ codes, c.toList.head? ≠ some '(') :
    qualifiedName (emitter k) name links.reverse cx g =
        .ok ("::".intercalate (name :: codes), g') ↔
      links.length = 1 ∨ ∀ l ∈ links, l.isIdent = true := by
  obtain ⟨last, front, hreverse⟩ : ∃ last front, links.reverse = last :: front :=
    exists_cons_of_ne_nil (by simpa using hlinks)
  obtain rfl : links = front.reverse ++ [last] := by
    rw [← reverse_reverse links, hreverse, reverse_cons]
  rw [hreverse]
  cases hlast : last.isIdent with
  | true =>
    rw [qualifiedName_of_name hlast hcodes]
    constructor
    · exact Or.inr
    · rintro (hlength | hall)
      · obtain rfl : front = [] := by simpa using hlength
        simpa using hlast
      · exact hall
  | false =>
    have htemplate : last.isTemplate = true := by simpa [hlast] using hlink last (by simp)
    rw [qualifiedName_of_template hlast htemplate hcodes hplain]
    constructor
    · rintro rfl
      exact .inl rfl
    · rintro (hlength | hall)
      · simpa using hlength
      · rw [hall last (by simp)] at hlast
        cases hlast

/-- The code of an access `A.x₁.x₂…` whose first name is neither `self` nor a class nor a variable, and
    whose links are names and templates, is `A::c₁::c₂…` with the codes of the links in the order of
    the source just if there is one link only, or all links are names. -/
theorem emitAttribute_chain_iff (hchain : IsChain first links (g.program.current n))
    (hlinks : links ≠ []) (hname : first.name? = some name) (hself : name ≠ "self")
    (hclass : g.program.lookupClass cx first = none)
    (hvar : Gen.findDef first first g = .ok (none, g))
    (hlink : ∀ l ∈ links, (l.isIdent || l.isTemplate) = true)
    (hcodes : links.mapM (linkCode (emitter k) cx) g = .ok (codes, g'))
    (hplain : ∀ c ∈ codes, c.toList.head? ≠ some '(') :
    emitAttribute (emitter k) n cx g = .ok ("::".intercalate (name :: codes), g') ↔
      links.length = 1 ∨ ∀ l ∈ links, l.isIdent = true := by
  rw [emitAttribute_eq_qualifiedName hchain hlinks hname hself hclass hvar]
  exact qualifiedName_eq_ok_iff hlinks hlink hcodes hplain

/-- A state in which the node with the label 1 belongs to a scope without variables. -/
def emptyState : Generator :=
  { program := { scopes := #[{}], scopeTable := #[none, some 0] } }

/-- The name `A`, with the label 1. -/
def sampleFirst : Node := { Node.ident "A" with info := { id := 1 } }

def sampleTemplate : Node := Node.make .template (some (Node.ident "c")) [Node.ident "int"]

/-- The tree of `A.b.c<int>`. -/
def sampleChain : Node :=
  Node.ofBinary .attribute "." (Node.ofBinary .attribute "." sampleFirst (Node.ident "b"))
    sampleTemplate

theorem emitAttribute_sampleChain_ne :
    [Node.ident "b", sampleTemplate].mapM (linkCode (emitter 5) 0) emptyState =
      .ok (["b", "c<int>"], emptyState) ∧
    emitAttribute (emitter 5) sampleChain 0 emptyState ≠ .ok ("A::b::c<int>", emptyState) := by
  have hcodes : [Node.ident "b", sampleTemplate].mapM (linkCode (emitter 5) 0) emptyState =
      .ok (["b", "c<int>"], emptyState) := rfl
  have hchain : IsChain sampleFirst [Node.ident "b", sampleTemplate]
      (emptyState.program.current sampleChain) :=
    (IsChain.start.access (Node.ident "b") rfl rfl).access sampleTemplate rfl rfl
  refine ⟨hcodes, ?_⟩
  have hiff := emitAttribute_chain_iff hchain (List.cons_ne_nil _ _) rfl (by decide) rfl rfl
    (by decide) hcodes (by decide)
  exact fun h => absurd (hiff.mp h) (by decide)

/-- The code of `A.b.c<int>` has the last link first. -/
theorem emitAttribute_sampleChain :
    emitAttribute (emitter 5) sampleChain 0 emptyState =
      .ok ("A::(*ceto::mad(c<int>)).b", emptyState) := rfl

end Cppward.Emit
