import Cppward.Proofs.Analysis.Finding
import Mathlib.Data.List.ProdSigma
import Mathlib.Logic.Relation
import Mathlib.Data.List.Nodup
import Mathlib.Data.List.Perm.Subperm

namespace Cppward.Analysis.Program

open Node List Relation

/-!
# Where a look-up ends

A look-up follows the values of definitions, and goes on in the scope around.

* `findDefIn_eq_head?`, `findDef_eq_head?` — the look-up for one definition gives the first of all,
* `Follows` — a step of a look-up: to the value of a definition, or to the scope around,
* `exists_way` — a look-up that does not end goes on for any number of steps,
* `findDefs_ends_iff` — a look-up ends exactly if its steps lead into no cycle.
-/

variable {p : Program} {var source : Node} {s fuel k : Nat} {d e : Definition} {ds : List Definition}

/-! ### The first definition -/

theorem head?_of_mapM {α : Type} {f : α → Option (List α)} {as : List α} {bss : List (List α)}
    (hf : ∀ a bs, f a = some bs → bs.head? = some a) (h : as.mapM f = some bss) :
    bss.flatten.head? = as.head? := by
  cases as with
  | nil =>
    cases h
    rfl
  | cons a as =>
    simp only [mapM_cons, Option.bind_eq_bind, Option.bind_eq_some_iff, Option.pure_def,
      Option.some.injEq] at h
    obtain ⟨bs, hbs, rest, -, rfl⟩ := h
    simp [head?_append, hf a bs hbs]

/-- With as much fuel or more, the look-up for one definition gives the first of all. -/
theorem findDefIn_eq_head? (h : p.findDefsIn fuel s var = some ds) (hk : fuel ≤ k) :
    p.findDefIn k s var = ds.head? := by
  induction fuel generalizing s ds k with
  | zero => cases h
  | succ fuel ih =>
    obtain ⟨k, rfl⟩ : ∃ j, k = j + 1 := ⟨k - 1, by omega⟩
    simp only [findDefsIn, Option.bind_eq_bind, Option.bind_eq_some_iff] at h
    obtain ⟨own, hown, h⟩ := h
    have hfirst : own.flatten.head? = (p.scope s).definitions.find? (p.reaches var) := by
      rw [head?_of_mapM (fun d bs hbs => ?_) hown, head?_filter]
      cases halias : p.aliasOf d with
      | none =>
        simp only [halias, Option.pure_def, Option.some.injEq] at hbs
        rw [← hbs, head?_cons]
      | some source =>
        simp only [halias, Option.bind_eq_some_iff, Option.pure_def, Option.some.injEq] at hbs
        obtain ⟨_, -, rfl⟩ := hbs
        rfl
    rw [findDefIn, ← hfirst]
    cases hparent : (p.scope s).parent with
    | none =>
      simp only [hparent, Option.pure_def, Option.some.injEq] at h
      rw [← h]
      cases own.flatten.head? <;> rfl
    | some outer =>
      simp only [hparent, Option.bind_eq_some_iff, Option.pure_def, Option.some.injEq] at h
      obtain ⟨around, haround, rfl⟩ := h
      rw [head?_append, Option.bind_some, ih haround (by omega)]
      cases own.flatten.head? <;> rfl

/-- **One definition and all of them.**  Whenever the look-up for all definitions ends, the look-up for
    one gives none if there are none, and otherwise the first. -/
theorem findDef_eq_head? (p : Program) (s : Nat) (var : Node) :
    (∀ fuel ds, p.findDefsIn fuel s var = some ds → ∀ k ≥ fuel, p.findDefIn k s var = ds.head?) ∧
      ∀ ds, p.findDefs s var = some ds → p.findDef s var = ds.head? := by
  refine ⟨fun fuel ds h k hk => findDefIn_eq_head? h hk, fun ds h => ?_⟩
  rw [findDefs] at h
  rw [findDef]
  split at h
  · rename_i hident
    rw [if_pos hident]
    exact findDefIn_eq_head? h (Nat.le_refl _)
  · rename_i hident
    cases h
    rw [if_neg hident]
    rfl

/-- The module `def (f: y = 1, z = y, x = x, z, x)`. -/
def chained : Node :=
  ofModule [ofCall (ident "def") [ident "f", ofBlock [
    ofBinary .assign "=" (ident "y") (ofDigits "1"), ofBinary .assign "=" (ident "z") (ident "y"),
    ofBinary .assign "=" (ident "x") (ident "x"), ident "z", ident "x"]]]

/-- Holds of the last use of a name in a program, and of its scope. -/
def atLast (name : String) (test : Program → Nat → Node → Bool) (p : Program) : Bool :=
  (p.tree.inOrder.reverse.find? (·.isNamed name)).any fun var => (p.scopeOf? var).any (test p · var)

theorem exists_of_atLast {test : Program → Nat → Node → Bool} (name : String)
    (h : (analyse chained).result.toOption.any (atLast name test) = true) : ∃ p s var,
      (analyse chained).result = .ok p ∧ p.scopeOf? var = some s ∧ test p s var = true := by
  cases hp : (analyse chained).result with
  | error e => simp [hp, Except.toOption] at h
  | ok p =>
    simp only [hp, Except.toOption, atLast, Option.any_some, Option.any_eq_true] at h
    obtain ⟨var, -, s, hs, htest⟩ := h
    exact ⟨p, s, var, rfl, hs, htest⟩

/-- The last `z` refers to `z` first, and then to `y`. -/
theorem findDef_eq_head?_chained : ∃ p s var ds, (analyse chained).result = .ok p ∧
    p.findDefs s var = some ds ∧ ds.map Definition.name = ["z", "y"] ∧
      p.findDef s var = ds.head? := by
  have hfound : (analyse chained).result.toOption.any (atLast "z" fun p s var =>
      (p.findDefs s var).map (·.map Definition.name) == some ["z", "y"]) = true := by decide +kernel
  obtain ⟨p, s, var, hp, -, h⟩ := exists_of_atLast "z" hfound
  rw [beq_iff_eq, Option.map_eq_some_iff] at h
  obtain ⟨ds, hds, hnames⟩ := h
  exact ⟨p, s, var, ds, hp, hds, hnames, (findDef_eq_head? p s var).2 ds hds⟩

/-! ### Look-ups that end -/

theorem isSome_mapM_iff {α β : Type} {f : α → Option β} {as : List α} :
    (as.mapM f).isSome = true ↔ ∀ a ∈ as, (f a).isSome = true := by
  induction as with
  | nil => simp
  | cons a as ih => cases hfirst : f a <;> cases hrest : as.mapM f <;> simp_all [mapM_cons]

/-- A step of a look-up: to the value of a definition that the name reaches, or to the scope around. -/
inductive Follows (p : Program) : Nat × Node → Nat × Node → Prop
  | value {s : Nat} {var source : Node} {d : Definition} (hd : d ∈ (p.scope s).definitions)
      (hreaches : p.reaches var d = true) (hsource : p.aliasOf d = some source) :
      Follows p (s, var) (s, source)
  | outer {s outer : Nat} {var : Node} (hparent : (p.scope s).parent = some outer) :
      Follows p (s, var) (outer, var)

/-- A look-up ends if those do that a step leads to. -/
theorem isSome_findDefsIn_iff : (p.findDefsIn (fuel + 1) s var).isSome = true ↔
    ∀ t, Follows p (s, var) t → (p.findDefsIn fuel t.1 t.2).isSome = true := by
  have hsteps : (∀ t, Follows p (s, var) t → (p.findDefsIn fuel t.1 t.2).isSome = true) ↔
      (∀ d ∈ (p.scope s).definitions, p.reaches var d = true → ∀ source, p.aliasOf d = some source →
        (p.findDefsIn fuel s source).isSome = true) ∧
      ∀ outer, (p.scope s).parent = some outer → (p.findDefsIn fuel outer var).isSome = true := by
    constructor
    · intro h
      exact ⟨fun d hd hreaches source hsource => h _ (.value hd hreaches hsource),
        fun outer hparent => h _ (.outer hparent)⟩
    · rintro ⟨hvalues, houter⟩ t hstep
      cases hstep with
      | value hd hreaches hsource => exact hvalues _ hd hreaches _ hsource
      | outer hparent => exact houter _ hparent
  rw [hsteps, findDefsIn]
  generalize hmap : (List.mapM _ _ : Option (List (List Definition))) = own
  have hown : own.isSome = true ↔ ∀ d ∈ (p.scope s).definitions, p.reaches var d = true →
      ∀ source, p.aliasOf d = some source → (p.findDefsIn fuel s source).isSome = true := by
    rw [← hmap, isSome_mapM_iff]
    simp only [mem_filter, and_imp]
    refine forall₃_congr fun d hd hreaches => ?_
    cases p.aliasOf d with
    | none => simp
    | some source => cases h : p.findDefsIn fuel s source <;> simp [h]
  rw [← hown]
  cases own with
  | none => simp
  | some own =>
    cases (p.scope s).parent with
    | none => simp
    | some outer => cases h : p.findDefsIn fuel outer var <;> simp [h]

/-- A look-up that comes to a cycle does not end. -/
theorem not_isSome_of_cycle {t : Nat × Node} (h : ReflTransGen (Follows p) (s, var) t)
    (hcycle : TransGen (Follows p) t t) (fuel : Nat) : ¬(p.findDefsIn fuel s var).isSome = true := by
  induction fuel generalizing s var with
  | zero => simp [findDefsIn]
  | succ fuel ih =>
    intro hends
    obtain ⟨next, hstep, hrest⟩ := TransGen.head'_iff.mp (hcycle.trans_right h)
    exact ih hrest (isSome_findDefsIn_iff.mp hends next hstep)

/-! ### Ways without an end -/

/-- A look-up that does not end within some number of steps goes on for as many. -/
theorem exists_way (h : ¬(p.findDefsIn fuel s var).isSome = true) : ∃ way : Nat → Nat × Node,
    way 0 = (s, var) ∧ ∀ i < fuel, Follows p (way i) (way (i + 1)) := by
  induction fuel generalizing s var with
  | zero => exact ⟨fun _ => (s, var), rfl, fun i hi => absurd hi (Nat.not_lt_zero i)⟩
  | succ fuel ih =>
    rw [isSome_findDefsIn_iff] at h
    push Not at h
    obtain ⟨next, hstep, hnext⟩ := h
    obtain ⟨way, hstart, hway⟩ := ih hnext
    refine ⟨fun i => i.casesOn (s, var) way, rfl, fun i hi => ?_⟩
    cases i with
    | zero =>
      show Follows p (s, var) (way 0)
      rwa [hstart]
    | succ i => exact hway i (by omega)

/-- The values that look-ups may follow. -/
def values (p : Program) : List Node :=
  (range p.nodes.size).filterMap fun label => (p.node? label).bind Node.rhs?

theorem mem_values (h : p.aliasOf d = some source) : source ∈ p.values := by
  rw [aliasOf, Option.bind_eq_bind, Option.bind_eq_some_iff] at h
  obtain ⟨defining, hdefining, h⟩ := h
  have hlt : d.defining < p.nodes.size := by
    by_contra hsize
    simp [node?, Array.getElem?_eq_none (Nat.le_of_not_lt hsize)] at hdefining
  have hvalue : defining.rhs? = some source := by
    split at h
    · cases hrhs : defining.rhs? with
      | none => simp [hrhs] at h
      | some value =>
        simp only [hrhs, Option.bind_some, Option.ite_none_right_eq_some] at h
        exact h.2
    · cases h
  exact mem_filterMap.mpr ⟨d.defining, mem_range.mpr hlt, by rwa [hdefining]⟩

section Way

variable {way : Nat → Nat × Node} (hway : ∀ i < fuel, Follows p (way i) (way (i + 1)))
include hway

theorem transGen_of_way {i j : Nat} (hij : i < j) (hj : j ≤ fuel) :
    TransGen (Follows p) (way i) (way j) := by
  induction j, hij using Nat.le_induction with
  | base => exact .single (hway i (by omega))
  | succ j hij ih => exact (ih (by omega)).tail (hway j (by omega))

/-- There are only finitely many places where the way may be. -/
theorem mem_of_way {i : Nat} (hi : i < fuel) :
    way i ∈ range p.scopes.size ×ˢ ((way 0).2 :: p.values) := by
  refine mem_product.mpr ⟨mem_range.mpr ?_, ?_⟩
  · by_contra hsize
    have hscope : p.scope (way i).1 = {} := by simp [scope, Array.getElem?_eq_none (Nat.le_of_not_lt hsize)]
    have hstep := hway i hi
    generalize way (i + 1) = next at hstep
    generalize way i = here at hstep hscope
    cases hstep with
    | value hd => simp [hscope] at hd
    | outer hparent => simp [hscope] at hparent
  · induction i with
    | zero => exact mem_cons_self
    | succ i ih =>
      have ih := ih (by omega)
      have hstep := hway i (by omega)
      generalize way (i + 1) = next at hstep ⊢
      generalize way i = here at hstep ih
      cases hstep with
      | value _ _ hsource => exact mem_cons_of_mem _ (mem_values hsource)
      | outer => exact ih

end Way

/-- **Look-ups that end.**  A look-up ends exactly if its steps, from a name to the value of a definition
    and from a scope to the one around, lead into no cycle; otherwise it never ends. -/
theorem findDefs_ends_iff (hvar : var.isIdent = true) :
    ((p.findDefs s var).isSome = true ↔
      ∀ t, ReflTransGen (Follows p) (s, var) t → ¬TransGen (Follows p) t t) ∧
      ∀ t, ReflTransGen (Follows p) (s, var) t → TransGen (Follows p) t t →
        ∀ fuel, p.findDefsIn fuel s var = none := by
  rw [findDefs, if_pos hvar]
  refine ⟨⟨fun hends t ht hcycle => not_isSome_of_cycle ht hcycle _ hends, fun hno => ?_⟩,
    fun t ht hcycle fuel => by simpa using not_isSome_of_cycle ht hcycle fuel⟩
  by_contra hends
  obtain ⟨way, hstart, hway⟩ := exists_way hends
  -- there are fewer names in scopes than steps, so that the way comes to one of them twice
  have htwice : ∃ i j, i < j ∧ j < p.lookupFuel ∧ way i = way j := by
    by_contra hnone
    push Not at hnone
    have hnodup : ((range p.lookupFuel).map way).Nodup := by
      refine (nodup_map_iff_inj_on nodup_range).mpr fun i hi j hj heq => ?_
      rw [mem_range] at hi hj
      rcases Nat.lt_trichotomy i j with hlt | rfl | hlt
      · exact absurd heq (hnone i j hlt hj)
      · rfl
      · exact absurd heq.symm (hnone j i hlt hi)
    have hsub : (range p.lookupFuel).map way ⊆ range p.scopes.size ×ˢ ((way 0).2 :: p.values) := by
      intro t ht
      obtain ⟨i, hi, rfl⟩ := mem_map.mp ht
      exact mem_of_way hway (mem_range.mp hi)
    have hlength := (subperm_of_subset hnodup hsub).length_le
    have hvalues : p.values.length ≤ p.nodes.size := by
      rw [values]
      simpa using (range p.nodes.size).length_filterMap_le fun l => (p.node? l).bind Node.rhs?
    have hmul := Nat.mul_le_mul_left p.scopes.size (Nat.add_le_add_right hvalues 1)
    rw [length_map, length_range, length_product, length_range, length_cons, lookupFuel] at hlength
    omega
  obtain ⟨i, j, hij, hj, htwice⟩ := htwice
  have hcycle := transGen_of_way hway hij (Nat.le_of_lt hj)
  have hreach : ReflTransGen (Follows p) (s, var) (way i) := by
    rw [← hstart]
    rcases Nat.eq_zero_or_pos i with rfl | hpos
    · exact .refl
    · exact (transGen_of_way hway hpos (by omega)).to_reflTransGen
  exact hno _ hreach (by rwa [← htwice] at hcycle)

theorem findDefs_ends_iff_chained : ∃ p s var, (analyse chained).result = .ok p ∧
    var.isIdent = true ∧ (p.findDefs s var).isSome = true ∧
      ∀ t, ReflTransGen (Follows p) (s, var) t → ¬TransGen (Follows p) t t := by
  have hends : (analyse chained).result.toOption.any (atLast "z" fun p s var =>
      var.isIdent = true ∧ (p.findDefs s var).isSome = true) = true := by
    decide +kernel
  obtain ⟨p, s, var, hp, -, h⟩ := exists_of_atLast "z" hends
  obtain ⟨hvar, hends⟩ := of_decide_eq_true h
  exact ⟨p, s, var, hp, hvar, hends, (findDefs_ends_iff hvar).1.mp hends⟩

/-- The look-up of the last `x` never ends: it follows `x = x` back to the same assignment. -/
theorem findDefsIn_chained_eq_none : ∃ p s var, (analyse chained).result = .ok p ∧
    p.scopeOf? var = some s ∧ var.isNamed "x" = true ∧ ∀ fuel, p.findDefsIn fuel s var = none := by
  have hself : (analyse chained).result.toOption.any (atLast "x" fun p s var => var.isNamed "x" = true ∧
      ∃ d ∈ (p.scope s).definitions, p.reaches var d = true ∧
        ∃ source ∈ p.aliasOf d, p.reaches source d = true) = true := by
    decide +kernel
  obtain ⟨p, s, var, hp, hs, h⟩ := exists_of_atLast "x" hself
  obtain ⟨hname, d, hd, hreaches, source, hsource, hself⟩ := of_decide_eq_true h
  refine ⟨p, s, var, hp, hs, hname, fun fuel => ?_⟩
  have hcycle : TransGen (Follows p) (s, source) (s, source) := .single (.value hd hself hsource)
  simpa using not_isSome_of_cycle (.single (.value hd hreaches hsource)) hcycle fuel

end Cppward.Analysis.Program
