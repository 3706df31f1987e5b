import Cppward.Analysis.Analyse
import Cppward.Proofs.Node.Order

namespace Cppward.Analysis.Program

open Node List

/-!
# What a name may refer to

A look-up goes from a scope outwards and compares names and places in the tree.

* `mem_findDefsIn_iff` — the answer of a look-up: what the name reaches in a scope or around it, and
  what the values of these are found to be,
* `findDefs_lookBack` — a name that is searched for in its place refers to nothing that comes later;
  a name in a declared type has no place in the search, and refers to all definitions of the name.
-/

variable {p : Program} {var : Node} {s : Nat} {d : Definition} {ds : List Definition}

/-- The scope `t` is the scope `s` or one around it. -/
inductive Around (p : Program) : (s t : Nat) → Prop
  | self {s : Nat} : Around p s s
  | outer {s outer t : Nat} (hparent : (p.scope s).parent = some outer) (h : Around p outer t) :
      Around p s t

/-- The definition stands in the scope or around it. -/
def Visible (p : Program) (s : Nat) (d : Definition) : Prop :=
  ∃ t, Around p s t ∧ d ∈ (p.scope t).definitions

/-- The name refers to the definition without following an assignment. -/
def Found (p : Program) (s : Nat) (var : Node) (d : Definition) : Prop :=
  Visible p s d ∧ p.reaches var d = true

/-- What a look-up gives: a definition that the name reaches, or one that the value of such a
    definition leads to. -/
inductive LeadsTo (p : Program) : Nat → Node → Definition → Prop
  | here {s : Nat} {var : Node} {d : Definition} (hd : d ∈ (p.scope s).definitions)
      (hreaches : p.reaches var d = true) : LeadsTo p s var d
  | value {s : Nat} {var source : Node} {d e : Definition} (hd : d ∈ (p.scope s).definitions)
      (hreaches : p.reaches var d = true) (hsource : p.aliasOf d = some source)
      (h : LeadsTo p s source e) : LeadsTo p s var e
  | outer {s outer : Nat} {var : Node} {e : Definition} (hparent : (p.scope s).parent = some outer)
      (h : LeadsTo p outer var e) : LeadsTo p s var e

theorem Found.leadsTo (h : Found p s var d) : LeadsTo p s var d := by
  obtain ⟨⟨t, ht, hd⟩, hreaches⟩ := h
  induction ht with
  | self => exact .here hd hreaches
  | outer hparent _ ih => exact .outer hparent (ih hd)

theorem mem_flatten_of_mapM {α β : Type} {f : α → Option (List β)} {as : List α}
    {bss : List (List β)} (h : as.mapM f = some bss) :
    (∀ a ∈ as, ∃ bs, f a = some bs) ∧
      ∀ b, b ∈ bss.flatten ↔ ∃ a ∈ as, ∃ bs, f a = some bs ∧ b ∈ bs := by
  induction as generalizing bss with
  | nil =>
    cases h
    simp
  | cons a as ih =>
    simp only [mapM_cons, Option.bind_eq_bind, Option.bind_eq_some_iff, Option.pure_def,
      Option.some.injEq] at h
    obtain ⟨bs, hbs, rest, hrest, rfl⟩ := h
    obtain ⟨hall, hmem⟩ := ih hrest
    refine ⟨forall_mem_cons.mpr ⟨⟨bs, hbs⟩, hall⟩, fun b => ?_⟩
    rw [flatten_cons, mem_append, hmem, exists_mem_cons_iff]
    simp [hbs]

/-- A look-up that ends gives exactly what is followed. -/
theorem mem_findDefsIn_iff {fuel : Nat} (h : p.findDefsIn fuel s var = some ds) (e : Definition) :
    e ∈ ds ↔ LeadsTo p s var e := by
  induction fuel generalizing s var ds with
  | zero => cases h
  | succ fuel ih =>
    simp only [findDefsIn, Option.bind_eq_bind, Option.bind_eq_some_iff] at h
    obtain ⟨own, hown, h⟩ := h
    obtain ⟨hall, hmem⟩ := mem_flatten_of_mapM hown
    have hown : e ∈ own.flatten ↔ ∃ d ∈ (p.scope s).definitions, p.reaches var d = true ∧
        (e = d ∨ ∃ source, p.aliasOf d = some source ∧ LeadsTo p s source e) := by
      rw [hmem]
      simp only [mem_filter, and_assoc]
      refine exists_congr fun d => and_congr_right fun hd => and_congr_right fun hreaches => ?_
      obtain ⟨bs, hbs⟩ := hall d (mem_filter.mpr ⟨hd, hreaches⟩)
      cases halias : p.aliasOf d with
      | none => simp
      | some source =>
        simp only [halias, Option.bind_eq_some_iff] at hbs
        obtain ⟨found, hfound, -⟩ := hbs
        simp [hfound, ih hfound]
    have hlocal : e ∈ own.flatten → LeadsTo p s var e := by
      rw [hown]
      rintro ⟨d, hd, hreaches, rfl | ⟨source, hsource, he⟩⟩
      · exact .here hd hreaches
      · exact .value hd hreaches hsource he
    cases hparent : (p.scope s).parent with
    | none =>
      rw [hparent] at h
      obtain rfl := Option.some.inj h
      refine ⟨hlocal, fun he => hown.mpr ?_⟩
      cases he with
      | here hd hreaches => exact ⟨e, hd, hreaches, .inl rfl⟩
      | value hd hreaches hsource he => exact ⟨_, hd, hreaches, .inr ⟨_, hsource, he⟩⟩
      | outer houter => simp [hparent] at houter
    | some outer =>
      simp only [hparent, Option.bind_eq_some_iff, Option.pure_def, Option.some.injEq] at h
      obtain ⟨around, haround, rfl⟩ := h
      rw [mem_append, ih haround]
      refine ⟨fun he => he.elim hlocal (.outer hparent), fun he => ?_⟩
      cases he with
      | here hd hreaches => exact .inl (hown.mpr ⟨e, hd, hreaches, .inl rfl⟩)
      | value hd hreaches hsource he => exact .inl (hown.mpr ⟨_, hd, hreaches, .inr ⟨_, hsource, he⟩⟩)
      | outer houter he =>
        obtain rfl := Option.some.inj (hparent.symm.trans houter)
        exact .inr he

/-- A name reaches the definitions of the same name whose label a search meets, and that without
    having met the name before. -/
theorem reaches_iff : p.reaches var d = true ↔
    some d.name = var.name? ∧ d.defined ≠ var.id ∧ ∃ front x back,
      p.tree.inOrder = front ++ x :: back ∧ x.id = d.defined ∧ ∀ y ∈ front, y.id ≠ var.id := by
  simp only [reaches, comesBefore_eq, Bool.and_eq_true, beq_iff_eq, bne_iff_ne, ne_eq, and_assoc,
    Option.map_eq_some_iff]
  refine and_congr_right fun _ => and_congr_right fun hne => ⟨?_, ?_⟩
  · rintro ⟨x, hx, hid⟩
    obtain ⟨-, front, back, heq, hfront⟩ := find?_eq_some_iff_append.mp hx
    refine ⟨front, x, back, heq, hid, fun y hy hvar => ?_⟩
    simpa [hvar] using hfront y hy
  · rintro ⟨front, x, back, heq, hid, hfront⟩
    rw [heq, find?_append]
    cases hfind : front.find? _ with
    | none => exact ⟨x, by simp [hid], hid⟩
    | some y =>
      refine ⟨y, rfl, ?_⟩
      have hy := find?_some hfind
      simpa [hfront y (mem_of_find?_eq_some hfind)] using hy

/-- **Names look back.**  A look-up gives all definitions that the name refers to directly, and what
    these lead to.  Each of the former has the same name and is not made at the name itself.  It
    comes before the name wherever a search meets the name; where none does, as in a declared type,
    only the name and the scope count. -/
theorem findDefs_lookBack (h : p.findDefs s var = some ds) :
    (∀ d ∈ ds, LeadsTo p s var d) ∧
    (∀ d, Found p s var d → d ∈ ds ∧ some d.name = var.name? ∧ d.defined ≠ var.id ∧
      ∀ front back, p.tree.inOrder = front ++ var :: back → ∃ x ∈ front, x.id = d.defined) ∧
    ((∀ y ∈ p.tree.inOrder, y.id ≠ var.id) → ∀ d, Found p s var d ↔
      Visible p s d ∧ some d.name = var.name? ∧ ∃ x ∈ p.tree.inOrder, x.id = d.defined) := by
  have hanswer : ∀ d, LeadsTo p s var d → var.isIdent = true → d ∈ ds := by
    intro d hd hident
    rw [findDefs, if_pos hident] at h
    exact (mem_findDefsIn_iff h d).mpr hd
  refine ⟨fun d hd => ?_, fun d hd => ?_, fun hnever d => and_congr_right fun _ => ?_⟩
  · rw [findDefs] at h
    split at h
    · exact (mem_findDefsIn_iff h d).mp hd
    · cases h
      cases hd
  · obtain ⟨hname, hne, first, x, last, hsplit, hid, hfirst⟩ := reaches_iff.mp hd.2
    have hident : var.isIdent = true := by
      rw [isIdent, ← hname]
      rfl
    refine ⟨hanswer d hd.leadsTo hident, hname, hne, fun front back heq => ?_⟩
    -- the definition is met before the first place of the name, and so before this one
    have hxvar : x ≠ var := fun hx => hne (by rw [← hid, hx])
    obtain ⟨rest, rfl, hrest⟩ | ⟨rest, rfl, hrest⟩ :=
      List.append_eq_append_iff.mp (hsplit.symm.trans heq)
    · cases rest with
      | nil => exact absurd (List.cons.inj hrest).1 hxvar
      | cons y rest =>
        obtain ⟨rfl, -⟩ := List.cons.inj hrest
        exact ⟨x, by simp, hid⟩
    · cases rest with
      | nil => exact absurd (List.cons.inj hrest).1.symm hxvar
      | cons y rest =>
        obtain ⟨rfl, -⟩ := List.cons.inj hrest
        exact absurd rfl (hfirst var (by simp))
  · rw [reaches_iff]
    refine and_congr_right fun _ => ⟨?_, ?_⟩
    · rintro ⟨-, front, x, back, heq, hid, -⟩
      exact ⟨x, by simp [heq], hid⟩
    · rintro ⟨x, hx, hid⟩
      obtain ⟨front, back, heq⟩ := List.append_of_mem hx
      refine ⟨fun hvar => hnever x hx (hid.trans hvar), front, x, back, heq, hid, fun y hy => ?_⟩
      exact hnever y (by simp [heq, hy])

/-- The module `def (f: y: x = 1, x = 2, x)`. -/
def typedByLater : Node :=
  ofModule [ofCall (ident "def") [ident "f", ofBlock [
    ofBinary .assign "=" (ofBinary .typed ":" (ident "y") (ident "x")) (ofDigits "1"),
    ofBinary .assign "=" (ident "x") (ofDigits "2"), ident "x"]]]

/-- The last `x` of the module refers to a definition that comes before it. -/
theorem findDefs_lookBack_typedByLater : ∃ p s var ds d front back,
    (analyse typedByLater).result = .ok p ∧ p.findDefs s var = some ds ∧ Found p s var d ∧
      p.tree.inOrder = front ++ var :: back ∧
      (LeadsTo p s var d ∧ d ∈ ds ∧ d.defined ≠ var.id ∧ ∃ x ∈ front, x.id = d.defined) := by
  have hfound : ((analyse typedByLater).result.toOption.bind fun p =>
      (p.tree.inOrder.reverse.find? (·.isNamed "x")).bind fun var => (p.scopeOf? var).bind fun s =>
        (p.findDefs s var).bind fun _ => (p.scope s).definitions.find? (p.reaches var)).isSome = true := by
    decide +kernel
  obtain ⟨d, hd⟩ := Option.isSome_iff_exists.mp hfound
  cases hp : (analyse typedByLater).result with
  | error e => simp [hp, Except.toOption] at hd
  | ok p =>
    simp only [hp, Except.toOption, Option.bind_some, Option.bind_eq_some_iff] at hd
    obtain ⟨var, hvar, s, -, ds, hds, hd⟩ := hd
    have hfound : Found p s var d :=
      ⟨⟨s, .self, List.mem_of_find?_eq_some hd⟩, List.find?_some hd⟩
    obtain ⟨front, back, hsplit⟩ :=
      List.append_of_mem (List.mem_reverse.mp (List.mem_of_find?_eq_some hvar))
    obtain ⟨hall, hdirect, -⟩ := findDefs_lookBack hds
    obtain ⟨hmem, -, hne, hbefore⟩ := hdirect d hfound
    exact ⟨p, s, var, ds, d, front, back, rfl, hds, hfound, hsplit, hall d hmem, hmem, hne,
      hbefore front back hsplit⟩

/-- The type `x` refers to the assignment that comes after the declaration. -/
theorem findDef_typedByLater : (analyse typedByLater).result.toOption.bind (fun p =>
    (p.tree.inOrder.find? (·.isNamed "y")).bind fun y => y.type.bind fun type =>
      (p.scopeOf? type).bind fun s => (p.findDefs s type).map fun ds =>
        (type.name?, ds.map fun d => (d.name, decide
          ((p.tree.inOrder.map Node.id).idxOf y.id < (p.tree.inOrder.map Node.id).idxOf d.defined)))) =
    some (some "x", [("x", true)]) := by
  decide +kernel

end Cppward.Analysis.Program
