import Cppward.Proofs.Emit.Steady.Emitter

namespace Cppward.Analysis.Program

open Emit List Node Relation

/-!
# The class that a name stands for

Classes are only ever added at the end of a scope, and a look-up takes the first one of the name.

* `Keeps` — what no step of the generation undoes,
* `Numbered` — the classes of the scopes that the generation has opened are in the table,
* `Sees.lookupClassIn_eq` — a look-up gives the first class of the name in the scope that is seen,
* `lookupClass_defined` — the class that a name stands for once the code of its definition is there.
-/

variable {p q r : Program} {c : ClassEntry} {D : Nat → Prop} {cx s i k start : Nat}
variable {name code : String} {n v : Node} {g g₁ : Generator}

/-! ### What is kept -/

/-- What is said of a class when it is added, and for good. -/
def settled (c : ClassEntry) : ClassEntry := { c with isPureVirtual := false, isConcrete := false }

/-- Classes stay where they are, and new ones come behind them.  Once the code of a class is complete, it
    is also settled whether the class is concrete. -/
structure Keeps (D : Nat → Prop) (p q : Program) : Prop where
  size : p.classes.size ≤ q.classes.size
  classes : ∀ s, (p.scope s).classes <+: (q.scope s).classes
  entry : ∀ i < p.classes.size, settled (q.classEntry i) = settled (p.classEntry i)
  concrete : ∀ i < p.classes.size, D i → (q.classEntry i).isConcrete = (p.classEntry i).isConcrete

theorem Keeps.trans (h : Keeps D p q) (h' : Keeps D q r) : Keeps D p r where
  size := Nat.le_trans h.size h'.size
  classes s := (h.classes s).trans (h'.classes s)
  entry i hi := (h'.entry i (Nat.lt_of_lt_of_le hi h.size)).trans (h.entry i hi)
  concrete i hi hD := (h'.concrete i (Nat.lt_of_lt_of_le hi h.size) hD).trans (h.concrete i hi hD)

/-- All but what is said of the classes `D` holds whatever classes are complete. -/
theorem Keeps.of_keeps (h : Keeps D p q) : Keeps (fun _ => False) p q :=
  ⟨h.size, h.classes, h.entry, fun _ _ h => h.elim⟩

theorem Keeps.name_eq (h : Keeps D p q) (hi : i < p.classes.size) :
    (q.classEntry i).name = (p.classEntry i).name := by
  show (settled (q.classEntry i)).name = (settled (p.classEntry i)).name
  rw [h.entry i hi]

theorem size_addClass (c : ClassEntry) (s : Nat) :
    (p.addClass s c).2.classes.size = p.classes.size + 1 := by
  simp [addClass, modifyScope]

theorem classes_addClass (c : ClassEntry) (s t : Nat) :
    ((p.addClass s c).2.scope t).classes =
      (p.scope t).classes ++ if s = t ∧ t < p.scopes.size then [p.classes.size] else [] := by
  simp only [addClass, modifyScope, scope, Array.getElem?_modify]
  by_cases ht : t < p.scopes.size <;> by_cases hs : s = t <;> simp [ht, hs]

theorem classEntry_addClass (c : ClassEntry) (s i : Nat) :
    (p.addClass s c).2.classEntry i = if i = p.classes.size then c else p.classEntry i := by
  simp only [addClass, modifyScope, classEntry, Array.getElem?_push]
  split <;> rfl

/-- A single change keeps the classes. -/
theorem keeps_of_change (h : Changes D p q) : Keeps D p q := by
  cases h with
  | addClass s c =>
    have hentry (i : Nat) (hi : i < p.classes.size) : (p.addClass s c).2.classEntry i = p.classEntry i := by
      rw [classEntry_addClass, if_neg (Nat.ne_of_lt hi)]
    refine ⟨by simp [size_addClass], fun t => ?_, fun i hi => by rw [hentry i hi], fun i hi _ => ?_⟩
    · rw [classes_addClass]
      exact prefix_append _ _
    · rw [hentry i hi]
  | abstract i =>
    refine ⟨by simp, fun _ => prefix_refl _, fun j hj => ?_, fun j hj _ => ?_⟩ <;>
    · simp only [classEntry, Array.getElem?_modify]
      split <;> simp [hj, settled]
  | close i isConcrete hi =>
    refine ⟨by simp, fun _ => prefix_refl _, fun j hj => ?_, fun j hj hD => ?_⟩
    · simp only [classEntry, Array.getElem?_modify]
      split <;> simp [hj, settled]
    · simp only [classEntry, Array.getElem?_modify]
      rw [if_neg]
      rintro rfl
      exact hi hD
  | other hclasses hscopes =>
    have hentry (i : Nat) : q.classEntry i = p.classEntry i := by rw [classEntry, classEntry, hclasses]
    exact ⟨by simp [hclasses], fun s => by simp [hscopes s], fun i _ => by rw [hentry],
      fun i _ _ => by rw [hentry]⟩

theorem keeps_of_changes (h : ReflTransGen (Changes D) p q) : Keeps D p q := by
  induction h with
  | refl => exact keeps_of_change (.other rfl fun _ => rfl)
  | tail _ h ih => exact ih.trans (keeps_of_change h)

/-- The classes of the scopes from `start` on are in the table. -/
def Numbered (start : Nat) (p : Program) : Prop :=
  ∀ s, start ≤ s → ∀ i ∈ (p.scope s).classes, i < p.classes.size

theorem Numbered.of_change (hp : Numbered start p) (h : Changes D p q) : Numbered start q := by
  intro s hs i hi
  cases h with
  | addClass t c =>
    rw [classes_addClass] at hi
    rw [size_addClass]
    obtain hi | hi := mem_append.mp hi
    · exact Nat.lt_succ_of_lt (hp s hs i hi)
    · split at hi
      · rw [mem_singleton.mp hi]
        exact Nat.lt_succ_self _
      · cases hi
  | abstract j => simpa using hp s hs i hi
  | close j isConcrete hj => simpa using hp s hs i hi
  | other hclasses hscopes =>
    rw [hclasses]
    exact hp s hs i (hscopes s ▸ hi)

/-- The scope of a module is new, and the scopes that are opened later are as well: they have no classes
    but those that the generation adds. -/
theorem numbered_of_changes (h : ReflTransGen (Changes D) (p.addScope {}).2 q) :
    Numbered p.scopes.size q := by
  induction h with
  | refl =>
    intro s hs i hi
    simp only [addScope, scope, Array.getElem?_push] at hi
    split at hi
    · cases hi
    · rw [Array.getElem?_eq_none hs] at hi
      cases hi
  | tail _ h ih => exact ih.of_change h

/-! ### Look-ups -/

/-- From the scope `s`, the scope `cx` around it is seen past scopes that have nothing of the name. -/
inductive Sees (p : Program) (name : String) (cx : Nat) : Nat → Prop
  | self : Sees p name cx cx
  | inner {s outer : Nat} (hparent : (p.scope s).parent = some outer) (hlt : outer < s)
      (hclasses : ∀ i ∈ (p.scope s).classes, (p.classEntry i).name ≠ name)
      (hinterfaces : (p.scope s).interfaces.lookup name = none) (h : Sees p name cx outer) :
      Sees p name cx s

/-- The first class of the name in the scope. -/
def first? (p : Program) (cx : Nat) (name : String) : Option Nat :=
  (p.scope cx).classes.find? fun i => (p.classEntry i).name == name

theorem Sees.lookupClassIn_eq (h : Sees p name cx s) {fuel : Nat} (hfuel : s < fuel)
    (hi : p.first? cx name = some i) : p.lookupClassIn fuel s name = some (.entry i) := by
  rw [first?] at hi
  induction h generalizing fuel with
  | self =>
    obtain ⟨fuel, rfl⟩ := Nat.exists_eq_add_one_of_ne_zero (Nat.ne_zero_of_lt hfuel)
    simp [lookupClassIn, hi]
  | @inner s outer hparent hlt hclasses hinterfaces _ ih =>
    obtain ⟨fuel, rfl⟩ := Nat.exists_eq_add_one_of_ne_zero (Nat.ne_zero_of_lt hfuel)
    have hnone : (p.scope s).classes.find? (fun i => (p.classEntry i).name == name) = none := by
      simpa using hclasses
    simp only [lookupClassIn, hnone, hinterfaces, hparent]
    exact ih (by omega)

/-- In a scope where a class has been added, the first class of its name is what it was before, and the
    new one if there was none. -/
theorem first?_of_keeps (hcx : cx < p.scopes.size)
    (hknown : ∀ i ∈ (p.scope cx).classes, i < p.classes.size) (h : Keeps D (p.addClass cx c).2 q) :
    q.first? cx c.name = some ((p.first? cx c.name).getD p.classes.size) := by
  obtain ⟨added, hadded⟩ := h.classes cx
  have hname (i : Nat) (hi : i ≤ p.classes.size) :
      (q.classEntry i).name = ((p.addClass cx c).2.classEntry i).name :=
    h.name_eq (by simpa [size_addClass] using Nat.lt_succ_of_le hi)
  have hold : (p.scope cx).classes.find? (fun i => (q.classEntry i).name == c.name) =
      p.first? cx c.name := by
    rw [first?, ← head?_filter, ← head?_filter]
    refine congrArg head? (filter_congr fun i hi => ?_)
    have hi := hknown i hi
    rw [hname i (by omega), classEntry_addClass, if_neg (by omega)]
  rw [first?, ← hadded, classes_addClass, if_pos ⟨rfl, hcx⟩, find?_append, find?_append, hold,
    find?_cons_of_pos (by simp [hname, classEntry_addClass])]
  cases p.first? cx c.name <;> rfl

/-- **Declared and defined classes.**  Every run of the generator is a chain of steps.  When the code of a
    class has been generated in a scope of the module, there is a new entry with the name of the class
    and with what its definition says of `unique` and `struct`.  From then on, at every step and from
    every scope that sees the scope of the class, the name stands for the class of that name which was
    added there first.  If there was none before, that is the new one, and it is unique, a struct and
    concrete as it was when its code was complete.  Otherwise the new one is never found, and the older
    one says how objects are held. -/
theorem lookupClass_defined (hbefore : ReflTransGen (Changes fun _ => False) (p.addScope {}).2 g.program)
    (hopened : p.scopes.size ≤ cx) (hcx : cx < g.program.scopes.size)
    (hrun : emitClass (emitter k) n cx g = .ok (code, g₁))
    (hlater : ReflTransGen (Changes (· = g.program.classes.size)) g₁.program q)
    (hv : v.name? = some (g₁.program.classEntry g.program.classes.size).name)
    (hsees : Sees q (g₁.program.classEntry g.program.classes.size).name cx s) (hs : s < q.scopes.size) :
    (∀ D k n cx g r, (∀ i, D i → i < g.program.classes.size) → (emitter k).node n cx g = .ok r →
      ReflTransGen (Changes D) g.program r.2.program) ∧
    let d := g.program.current n
    let c := g₁.program.classEntry g.program.classes.size
    (∃ head, ClassHead.ofNode d g = .ok (head, g) ∧ c.name = head.name.name?.getD "") ∧
    c.definition = d.id ∧ c.isUnique = (d.type.map (·.isNamed "unique")).getD false ∧
    c.isStruct = (d.funcName? == some "struct") ∧
    match g.program.first? cx c.name with
    | none => q.lookupClass s v = some (.entry g.program.classes.size) ∧
        settled (q.classEntry g.program.classes.size) = settled c ∧
        (q.classEntry g.program.classes.size).isConcrete = c.isConcrete
    | some j => q.lookupClass s v = some (.entry j) ∧ j < g.program.classes.size ∧
        settled (q.classEntry j) = settled (g.program.classEntry j) := by
  refine ⟨fun D k n cx g r hD h => ((steady_emitter k).node n cx |>.moves _ _ _ h hD).2, ?_⟩
  intro d c
  have hknown := numbered_of_changes hbefore cx hopened
  obtain ⟨head, block?, x, hhead, hx, hrun⟩ := emitClass_eq_ok (D := fun _ => False) hrun
  -- The rest of the code of the class, and then what comes later.
  have hrest := keeps_of_changes ((hx id).moves _ _ _ hrun fun _ h => h.elim).2
  have hkeeps := keeps_of_changes hlater
  have hi {c : ClassEntry} : g.program.classes.size < (g.program.addClass cx c).2.classes.size := by
    rw [size_addClass]
    exact Nat.lt_succ_self _
  have hc := hrest.entry _ hi
  rw [classEntry_addClass, if_pos rfl] at hc
  have hname : c.name = head.name.name?.getD "" := congrArg ClassEntry.name hc
  refine ⟨⟨head, hhead, hname⟩, congrArg ClassEntry.definition hc, congrArg ClassEntry.isUnique hc,
    congrArg ClassEntry.isStruct hc, ?_⟩
  have hfound : q.lookupClass s v =
      some (.entry ((g.program.first? cx c.name).getD g.program.classes.size)) := by
    rw [lookupClass, hv]
    refine hsees.lookupClassIn_eq (by omega) ?_
    have hfirst := first?_of_keeps hcx hknown (hrest.trans hkeeps.of_keeps)
    rwa [← hname] at hfirst
  cases hfirst : g.program.first? cx c.name with
  | none =>
    have hi : g.program.classes.size < g₁.program.classes.size := Nat.lt_of_lt_of_le hi hrest.size
    exact ⟨by rw [hfound, hfirst]; rfl, hkeeps.entry _ hi, hkeeps.concrete _ hi rfl⟩
  | some j =>
    have hj : j < g.program.classes.size := hknown j (mem_of_find?_eq_some hfirst)
    refine ⟨by rw [hfound, hfirst]; rfl, hj, ?_⟩
    rw [(hrest.trans hkeeps.of_keeps).entry j (Nat.lt_trans hj hi), classEntry_addClass,
      if_neg (Nat.ne_of_lt hj)]

/-- The statements `class (Foo)` and `class (Foo: a: int): unique`. -/
def redeclared : Node :=
  ofBlock [ofCall (ident "class") [ident "Foo"],
    { ofCall (ident "class") [ident "Foo", ofBlock [{ ident "a" with type := some (ident "int") }]] with
      type := some (ident "unique") }]

/-- The definition in them. -/
def redefinition : Node := (alone redeclared).program.tree.args.getLast?.getD default

/-- Without the declaration, the unique class is found from a scope that is opened after it. -/
theorem lookupClass_defined_unique :
    ∃ code g₁, emitClass (emitter 8) redefinition 0 (alone redeclared) = .ok (code, g₁) ∧
      let q := (g₁.program.enterScope 0).2
      Sees q "Foo" 0 2 ∧ q.lookupClass 2 (ident "Foo") = some (.entry 0) ∧
        (q.classEntry 0).isUnique = true ∧ (q.classEntry 0).isStruct = false ∧
          (q.classEntry 0).isConcrete = true := by
  have hresult : (emitClass (emitter 8) redefinition 0 (alone redeclared)).toOption.any (fun r =>
      let q := (r.2.program.enterScope 0).2
      0 < r.2.program.classes.size ∧ r.2.program.scopes.size = 2 ∧ (r.2.program.classEntry 0).name = "Foo" ∧
        (r.2.program.classEntry 0).isConcrete = true ∧ (q.scope 2).parent = some 0 ∧
        (q.scope 2).classes = [] ∧ (q.scope 2).interfaces = []) = true := by
    decide +kernel
  cases hrun : emitClass (emitter 8) redefinition 0 (alone redeclared) with
  | error failure =>
    rw [hrun] at hresult
    cases hresult
  | ok r =>
    obtain ⟨code, g₁⟩ := r
    rw [hrun] at hresult
    obtain ⟨hadded, hsize, hname, hconcrete, hparent, hclasses, hinterfaces⟩ := of_decide_eq_true hresult
    have hsees : Sees (g₁.program.enterScope 0).2 "Foo" 0 2 :=
      .inner hparent (by decide) (by simp [hclasses]) (by simp [hinterfaces]) .self
    have hlater : ReflTransGen (Changes (· = 0)) g₁.program (g₁.program.enterScope 0).2 :=
      ((Gen.steady_enter (D := (· = 0))).moves g₁ _ _ rfl fun _ hi => hi ▸ hadded).2
    have hdefined := @lookupClass_defined { (alone redeclared).program with scopes := #[] } _ 0 2 8 _
      redefinition (ident "Foo") (alone redeclared) g₁ .refl (Nat.le_refl _) (by decide) hrun hlater
      (congrArg some hname.symm) (hname.symm ▸ hsees) (by simp [enterScope, addScope, hsize])
    obtain ⟨-, -, -, hunique, hstruct, hfound⟩ := hdefined
    obtain ⟨hfound, hsettled, hkept⟩ := hfound
    exact ⟨code, g₁, rfl, hsees, hfound,
      (congrArg ClassEntry.isUnique hsettled).trans (hunique.trans (by decide +kernel)),
      (congrArg ClassEntry.isStruct hsettled).trans (hstruct.trans (by decide +kernel)),
      hkept.trans hconcrete⟩

/-- What the name stands for when the code of the classes has been generated: whether it is unique, a
    struct and concrete. -/
def classAfter (name : String) (classes : List Node) : Option (Bool × Bool × Bool) := do
  let (_, g) ← (classes.mapM (emitClass (emitter 8) · 0) (alone redeclared)).toOption
  let (known, _) ← (Gen.lookupClass 0 (some (ident name)) g).toOption
  known.map fun r => (r.entry.isUnique, r.entry.isStruct, r.entry.isConcrete)

/-- A class that is declared before it is defined is not held as the definition says. -/
theorem classAfter_redeclared :
    (classAfter "Foo" [redefinition], classAfter "Foo" (alone redeclared).program.tree.args) =
      (some (true, false, true), some (false, false, true)) := by
  decide +kernel

end Cppward.Analysis.Program
