import Cppward.Emit.Expression
import Cppward.Proofs.Stateful

namespace Cppward.Emit

open Analysis

/-!
# Runs of the generator

What a successful run of a computation says about its parts.

* `Gen.bind_eq_ok`, `Gen.pure_eq_ok`, `Gen.need_eq_ok`, … — the parts of a run that succeeds,
* `Gen.readsOnly_parent`, `Gen.readsOnly_lookupClass`, … — the look-ups, which leave the state alone,
-/

variable {g' : Generator} {fault : Fault} {s : String} {cx : Context}
variable {α β : Type} {g : Generator} {x : Gen α} {f : α → Gen β} {as : List α} {bs : List β}

namespace Gen

theorem bind_eq_ok {r : β × Generator} :
    (x >>= f) g = .ok r ↔ ∃ a g₁, x g = .ok (a, g₁) ∧ f a g₁ = .ok r :=
  Stateful.bind_eq_ok

theorem bind_apply_of_ok {a : α} {g₁ : Generator} (h : x g = .ok (a, g₁)) :
    (x >>= f) g = f a g₁ := by
  show (x g >>= fun p => f p.1 p.2) = _
  rw [h]
  rfl

theorem pure_eq_ok {a : α} {r : α × Generator} : (pure a : Gen α) g = .ok r ↔ r = (a, g) :=
  Stateful.pure_eq_ok

theorem need_eq_ok {x : Option α} {a : α} : need x g = .ok (a, g') ↔ x = some a ∧ g = g' := by
  cases x with
  | none => exact ⟨fun h => (nomatch h), fun h => (nomatch h.1)⟩
  | some b =>
    show (pure b : Gen α) g = _ ↔ _
    rw [pure_eq_ok, Prod.mk.injEq, Option.some.injEq, @eq_comm _ a, @eq_comm _ g']

theorem need_some (a : α) : need (some a) = pure a := rfl

theorem refuse_ne_ok {n : Node} {r : α × Generator} : (refuse fault n : Gen α) g ≠ .ok r := by
  intro h
  cases h

theorem refuseBare_ne_ok {r : α × Generator} : (refuseBare fault : Gen α) g ≠ .ok r := by
  intro h
  cases h

theorem program_apply : program g = .ok (g.program, g) := rfl

theorem current_apply (n : Node) : current n g = .ok (g.program.current n, g) := rfl

theorem current_bind (n : Node) (f : Node → Gen α) :
    (current n >>= f) g = f (g.program.current n) g := rfl

/-! ### Computations that leave the state alone -/

/-- A successful run ends in the state it started from. -/
def ReadsOnly (x : Gen α) : Prop := ∀ g r, x g = .ok r → g = r.2

theorem readsOnly_pure (a : α) : ReadsOnly (pure a : Gen α) := by
  intro g r h
  rw [pure_eq_ok] at h
  rw [h]

theorem ReadsOnly.bind (hx : ReadsOnly x) (hf : ∀ a, ReadsOnly (f a)) :
    ReadsOnly (x >>= f) := by
  intro g r h
  obtain ⟨a, g₁, ha, h⟩ := bind_eq_ok.mp h
  exact (hx g _ ha).trans (hf a g₁ r h)

theorem readsOnly_get : ReadsOnly (get : Gen Generator) := by
  intro g r h
  cases h
  rfl

theorem readsOnly_throw (failure : Failure) : ReadsOnly (throw failure : Gen α) := by
  intro g r h
  cases h

theorem readsOnly_program : ReadsOnly program := readsOnly_get.bind fun _ => readsOnly_pure _

theorem readsOnly_parent (n : Node) : ReadsOnly (parent n) :=
  readsOnly_program.bind fun _ => readsOnly_pure _

theorem readsOnly_need (x : Option α) : ReadsOnly (need x) := by
  cases x with
  | none => exact readsOnly_throw _
  | some a => exact readsOnly_pure a

theorem readsOnly_scopeOf (n : Node) : ReadsOnly (scopeOf n) :=
  readsOnly_program.bind fun _ => readsOnly_need _

theorem readsOnly_findDef (at_ var : Node) : ReadsOnly (findDef at_ var) :=
  (readsOnly_scopeOf at_).bind fun _ => readsOnly_program.bind fun _ => readsOnly_pure _

theorem readsOnly_findDefs (at_ var : Node) : ReadsOnly (findDefs at_ var) :=
  (readsOnly_scopeOf at_).bind fun _ => readsOnly_program.bind fun _ => readsOnly_need _

theorem readsOnly_nodeOf (label : Nat) : ReadsOnly (nodeOf label) :=
  readsOnly_program.bind fun _ => readsOnly_need _

theorem readsOnly_lookupClass (cx : Context) (n : Option Node) : ReadsOnly (lookupClass cx n) :=
  readsOnly_program.bind fun _ => readsOnly_pure _

theorem readsOnly_anyM {f : α → Gen Bool} (h : ∀ a, ReadsOnly (f a)) (as : List α) :
    ReadsOnly (as.anyM f) := by
  induction as with
  | nil => exact readsOnly_pure false
  | cons a as ih =>
    rw [List.anyM]
    refine (h a).bind fun b => ?_
    cases b with
    | true => exact readsOnly_pure true
    | false => exact ih

/-! ### Names and contexts -/

theorem program_of_fresh {hint : String} (h : fresh hint g = .ok (s, g')) :
    g'.program = g.program := by
  cases h
  rfl

theorem nodes_of_enter {inner : Context} (h : enter cx g = .ok (inner, g')) :
    g'.program.nodes = g.program.nodes := by
  cases h
  rfl

theorem indent_eq_ok (h : indent cx g = .ok (s, g')) :
    s = String.ofList (List.replicate (g.program.scope cx).columns ' ') ∧ g = g' := by
  cases h
  exact ⟨rfl, rfl⟩

theorem length_of_mapM (h : as.mapM f g = .ok (bs, g')) : bs.length = as.length := by
  induction as generalizing g bs with
  | nil =>
    obtain ⟨rfl, -⟩ := Stateful.mapM_nil_eq_ok.mp h
    rfl
  | cons a as ih =>
    obtain ⟨b, g₁, bs, -, hbs, rfl⟩ := Stateful.mapM_cons_eq_ok.mp h
    rw [List.length_cons, ih hbs, List.length_cons]

theorem mapM_eq_ok {r : List β × Generator}
    (hf : ∀ a ∈ as, ∀ b g', f a g = .ok (b, g') → g' = g) (h : as.mapM f g = .ok r) :
    r.2 = g ∧ List.Forall₂ (fun a b => f a g = .ok (b, g)) as r.1 := by
  obtain ⟨bs, g'⟩ := r
  induction as generalizing bs with
  | nil =>
    obtain ⟨rfl, rfl⟩ := Stateful.mapM_nil_eq_ok.mp h
    exact ⟨rfl, .nil⟩
  | cons a as ih =>
    obtain ⟨b, g₁, bs, ha, has, rfl⟩ := Stateful.mapM_cons_eq_ok.mp h
    obtain rfl : g₁ = g := hf a (List.mem_cons_self) b g₁ ha
    obtain ⟨hstate, hall⟩ := ih (fun x hx => hf x (List.mem_cons_of_mem a hx)) bs has
    exact ⟨hstate, .cons ha hall⟩

end Gen

/-- The state in which the code of a tree on its own is generated, all of it in one scope. -/
def alone (tree : Node) : Generator where
  program :=
    { Program.ofTree tree with
      scopes := #[{}]
      scopeTable := Array.replicate (tree.walk.length + 1) (some 0) }

end Cppward.Emit
