import Cppward.Emit.Module
import Cppward.Proofs.Emit.Run
import Mathlib.Logic.Relation

namespace Cppward.Emit

open Analysis Relation

/-!
# What the generator does to the tables of a program

Code is generated in many small computations, and few of them touch the table of classes.

* `Changes` — the steps by which the classes of a program change,
* `Steady` — computations whose runs are chains of such steps,
* `Gen.steady_enter`, `Gen.steady_modifyContext`, … — the operations that change the state.
-/

variable {α β : Type} {D : Nat → Prop} {x : Gen α} {f : α → Gen β} {g g' g'' : Generator}

/-- A step of the generation, where the code of the classes `D` is complete.  A class is added to a scope,
    it turns out to be abstract, or its own code says whether it is concrete; in all other steps the
    classes stay as they are, in the table and in every scope. -/
inductive Changes (D : Nat → Prop) : Program → Program → Prop
  | addClass (p : Program) (s : Nat) (c : ClassEntry) : Changes D p (p.addClass s c).2
  | abstract (p : Program) (i : Nat) :
      Changes D p { p with classes := p.classes.modify i ({ · with isPureVirtual := true }) }
  | close (p : Program) (i : Nat) (isConcrete : Bool) (hi : ¬D i) :
      Changes D p { p with classes := p.classes.modify i ({ · with isConcrete }) }
  | other {p q : Program} (hclasses : q.classes = p.classes)
      (hscopes : ∀ s, (q.scope s).classes = (p.scope s).classes) : Changes D p q

/-- One state comes from another by such steps, if the classes `D` are there. -/
def Leads (D : Nat → Prop) (g g' : Generator) : Prop :=
  (∀ i, D i → i < g.program.classes.size) →
    (∀ i, D i → i < g'.program.classes.size) ∧ ReflTransGen (Changes D) g.program g'.program

theorem Leads.refl (g : Generator) : Leads D g g := fun h => ⟨h, .refl⟩

theorem Leads.trans (h : Leads D g g') (h' : Leads D g' g'') : Leads D g g'' :=
  fun hD => ⟨(h' (h hD).1).1, (h hD).2.trans (h' (h hD).1).2⟩

theorem Leads.other (hclasses : g'.program.classes = g.program.classes)
    (hscopes : ∀ s, (g'.program.scope s).classes = (g.program.scope s).classes) : Leads D g g' :=
  fun hD => ⟨by rwa [hclasses], .single (.other hclasses hscopes)⟩

/-- The successful runs of a computation are chains of steps.  This is a class so that the computations
    without a case distinction need no proof of their own. -/
class Steady (D : Nat → Prop) (x : Gen α) : Prop where
  moves : Stateful.Moves (Leads D) x

namespace Steady

instance pure (a : α) : Steady D (pure a : Gen α) := ⟨Stateful.Moves.pure Leads.refl a⟩

theorem seq (hx : Steady D x) (hf : ∀ a, Steady D (f a)) : Steady D (x >>= f) :=
  ⟨Stateful.Moves.bind (fun _ _ _ => Leads.trans) hx.moves fun a => (hf a).moves⟩

instance bind [hx : Steady D x] [hf : ∀ a, Steady D (f a)] : Steady D (x >>= f) := hx.seq hf

theorem branch {c : Prop} [Decidable c] {y : Gen α} (hx : Steady D x) (hy : Steady D y) :
    Steady D (if c then x else y) := by
  split
  · exact hx
  · exact hy

/-- What comes behind a check is the same whether there is something to check or not. -/
theorem check {c : Prop} [Decidable c] {x : Gen Unit} {k : Unit → Gen α} (hx : Steady D x)
    (hk : ∀ u, Steady D (k u)) : Steady D (if c then x >>= k else k ()) :=
  (hx.seq hk).branch (hk ())

instance ite {c : Prop} [Decidable c] {y : Gen α} [hx : Steady D x] [hy : Steady D y] :
    Steady D (if c then x else y) := hx.branch hy

instance get : Steady D (get : Gen Generator) := ⟨Stateful.Moves.get Leads.refl⟩

instance throw (failure : Failure) : Steady D (throw failure : Gen α) := ⟨Stateful.Moves.throw failure⟩

theorem modify {f : Generator → Generator} (hf : ∀ g, Leads D g (f g)) :
    Steady D (modify f : Gen PUnit) := ⟨Stateful.Moves.modify hf⟩

theorem modifyGet {f : Generator → α × Generator} (hf : ∀ g, Leads D g (f g).2) :
    Steady D (modifyGet f : Gen α) := ⟨Stateful.Moves.modifyGet hf⟩

/-! ### Loops -/

theorem mapEach {as : List α} (hf : ∀ a, Steady D (f a)) : Steady D (as.mapM f) := by
  induction as with
  | nil => exact pure _
  | cons a as ih =>
    rw [List.mapM_cons]
    infer_instance

instance mapM {as : List α} [hf : ∀ a, Steady D (f a)] : Steady D (as.mapM f) := mapEach hf

theorem foldEach {f : β → α → Gen β} {as : List α} {b : β} (hf : ∀ b a, Steady D (f b a)) :
    Steady D (as.foldlM f b) := by
  induction as generalizing b with
  | nil => exact pure _
  | cons a as ih =>
    rw [List.foldlM_cons]
    infer_instance

instance foldlM {f : β → α → Gen β} {as : List α} {b : β} [hf : ∀ b a, Steady D (f b a)] :
    Steady D (as.foldlM f b) := foldEach hf

theorem forEach {f : α → Gen PUnit} {as : List α} (hf : ∀ a, Steady D (f a)) : Steady D (as.forM f) :=
  ⟨Stateful.Moves.forM Leads.refl (fun _ _ _ => Leads.trans) (fun a => (hf a).moves) as⟩

instance anyM {f : α → Gen Bool} {as : List α} [∀ a, Steady D (f a)] : Steady D (as.anyM f) := by
  induction as with
  | nil => exact pure _
  | cons a as ih =>
    rw [List.anyM]
    refine seq inferInstance fun b => ?_
    cases b <;> infer_instance

theorem filterAuxM {f : α → Gen Bool} {as acc : List α} [∀ a, Steady D (f a)] :
    Steady D (as.filterAuxM f acc) := by
  induction as generalizing acc with
  | nil => exact pure _
  | cons a as ih =>
    rw [List.filterAuxM]
    infer_instance

instance filterM {f : α → Gen Bool} {as : List α} [∀ a, Steady D (f a)] : Steady D (as.filterM f) := by
  have := @filterAuxM α D f as []
  rw [List.filterM]
  infer_instance

theorem filterMapM_loop {f : α → Gen (Option β)} {as : List α} {acc : List β} [∀ a, Steady D (f a)] :
    Steady D (List.filterMapM.loop f as acc) := by
  induction as generalizing acc with
  | nil => exact pure _
  | cons a as ih =>
    rw [List.filterMapM.loop]
    refine seq inferInstance fun o => ?_
    cases o <;> infer_instance

instance filterMapM {f : α → Gen (Option β)} {as : List α} [∀ a, Steady D (f a)] :
    Steady D (as.filterMapM f) := filterMapM_loop

theorem mapIdxM_go {f : Nat → α → Gen β} {as : List α} {acc : Array β} [∀ i a, Steady D (f i a)] :
    Steady D (List.mapIdxM.go f as acc) := by
  induction as generalizing acc with
  | nil => exact pure _
  | cons a as ih =>
    rw [List.mapIdxM.go]
    infer_instance

instance mapIdxM {f : Nat → α → Gen β} {as : List α} [∀ i a, Steady D (f i a)] :
    Steady D (as.mapIdxM f) := mapIdxM_go

instance mapOption {o : Option α} [∀ a, Steady D (f a)] : Steady D (o.mapM f) := by
  cases o with
  | none => exact pure _
  | some a =>
    rw [Option.mapM_some, map_eq_pure_bind]
    infer_instance

end Steady

/-! ### Operations on the state -/

/-- A change of scopes that leaves their classes alone. -/
class KeepsClasses (f : Scope → Scope) : Prop where
  classes : ∀ s, (f s).classes = s.classes

instance {b : Bool} : KeepsClasses ({ · with isUnsafe := b }) := ⟨fun _ => rfl⟩

instance {b : Bool} : KeepsClasses ({ · with inDecltype := b }) := ⟨fun _ => rfl⟩

instance {b : Bool} : KeepsClasses ({ · with inParameterList := b }) := ⟨fun _ => rfl⟩

instance {b : Bool} : KeepsClasses ({ · with inFunctionBody := b }) := ⟨fun _ => rfl⟩

instance {b b' : Bool} : KeepsClasses ({ · with inClassBody := b, inFunctionBody := b' }) :=
  ⟨fun _ => rfl⟩

instance {name : String} {l : Nat} : KeepsClasses (·.addInterfaceMethod name l) := ⟨fun _ => rfl⟩

theorem tables_propagate (k : Nat) (n : Node) (p : Program) :
    (Program.propagate k n p).classes = p.classes ∧ (Program.propagate k n p).scopes = p.scopes := by
  induction k generalizing n p with
  | zero => exact ⟨rfl, rfl⟩
  | succ k ih =>
    rw [Program.propagate]
    split
    · exact ⟨rfl, rfl⟩
    · exact ih _ _

/-- When the tree changes, the tables of scopes and classes stay as they are. -/
theorem tables_update (p : Program) (n : Node) :
    (p.update n).classes = p.classes ∧ (p.update n).scopes = p.scopes := by
  rw [Program.update]
  split
  · exact ⟨rfl, rfl⟩
  · exact tables_propagate _ _ _

namespace Gen

variable {n at_ var : Node} {cx : Context} {fault : Fault}

instance steady_need {o : Option α} : Steady D (need o) := by
  cases o with
  | none => exact .throw _
  | some a => exact .pure a

instance steady_unforeseen : Steady D (unforeseen : Gen α) := .throw _

instance steady_ensure {b : Bool} : Steady D (ensure b) := .ite

instance steady_program : Steady D program := .bind

instance steady_current : Steady D (current n) := .bind

instance steady_parent : Steady D (parent n) := .bind

instance steady_parentIs {test : Node → Bool} : Steady D (parentIs n test) := .bind

instance steady_refuse : Steady D (refuse fault n : Gen α) := .bind

instance steady_refuseBare : Steady D (refuseBare fault : Gen α) := .throw _

theorem steady_modifyProgram {f : Program → Program}
    (hf : ∀ p, (f p).classes = p.classes ∧ (f p).scopes = p.scopes) : Steady D (modifyProgram f) :=
  .modify fun g => .other (hf g.program).1 fun s => by simp [Program.scope, (hf g.program).2]

instance steady_update : Steady D (modifyProgram (·.update n)) :=
  steady_modifyProgram fun p => tables_update p n

instance steady_setType {type : Option Node} : Steady D (setType n type) := .bind

instance steady_withoutType {k : Node → Gen α} [∀ n, Steady D (k n)] : Steady D (withoutType n k) :=
  .bind

instance steady_adopt : Steady D (adopt n) := .modifyGet fun _ => .other rfl fun _ => rfl

instance steady_fresh {hint : String} : Steady D (fresh hint) := .modifyGet fun _ => .other rfl fun _ => rfl

instance steady_hasMain : Steady D (modify ({ · with hasMain := true }) : Gen PUnit) :=
  .modify fun _ => .other rfl fun _ => rfl

instance steady_context : Steady D (context cx) := .bind

/-- A scope that is entered has no classes, as all scopes that are not there. -/
instance steady_enter : Steady D (enter cx) := by
  refine .modifyGet fun g => .other rfl fun s => ?_
  simp only [Program.enterScope, Program.addScope, Program.scope, Array.getElem?_push]
  split
  · rename_i hs
    rw [hs, Array.getElem?_eq_none (Nat.le_refl _)]
    rfl
  · rfl

instance steady_modifyContext {f : Scope → Scope} [hf : KeepsClasses f] : Steady D (modifyContext cx f) := by
  refine .modify fun g => .other rfl fun s => ?_
  simp only [Program.modifyScope, Program.scope, Array.getElem?_modify]
  split
  · cases g.program.scopes[s]? with
    | none => rfl
    | some scope => exact hf.classes scope
  · rfl

instance steady_enterWith {f : Scope → Scope} [KeepsClasses f] : Steady D (enterWith cx f) := .bind

instance steady_indent : Steady D (indent cx) := .bind

instance steady_scopeOf : Steady D (scopeOf n) := .bind

instance steady_findDef : Steady D (findDef at_ var) := .bind

instance steady_findDefs : Steady D (findDefs at_ var) := .bind

instance steady_nodeOf {label : Nat} : Steady D (nodeOf label) := .bind

instance steady_lookupClass {o : Option Node} : Steady D (lookupClass cx o) := .bind

instance steady_abstract {i : Nat} : Steady D (modifyClass i ({ · with isPureVirtual := true })) :=
  .modify fun g hD => ⟨by simpa using hD, .single (.abstract g.program i)⟩

instance steady_close {i : Nat} {isConcrete : Bool} [hi : Fact (¬D i)] :
    Steady D (modifyClass i ({ · with isConcrete })) :=
  .modify fun g hD => ⟨by simpa using hD, .single (.close g.program i isConcrete hi.out)⟩

instance steady_isLastUse : Steady D (isLastUse n) := by
  unfold isLastUse
  refine .seq inferInstance fun _ => ?_
  split <;> infer_instance

end Gen

/-- All parts of an emitter are steady. -/
class Emitter.Steady (D : Nat → Prop) (e : Emitter) : Prop where
  node : ∀ n cx, Emit.Steady D (e.node n cx)
  type : ∀ n type cx, Emit.Steady D (e.type n type cx)
  block : ∀ n cx, Emit.Steady D (e.block n cx)
  typeOf : ∀ n cx, Emit.Steady D (e.typeOf n cx)
  inferred : ∀ n cx, Emit.Steady D (e.inferred n cx)
  element : ∀ n cx, Emit.Steady D (e.element n cx)

attribute [instance] Emitter.Steady.node Emitter.Steady.type Emitter.Steady.block Emitter.Steady.typeOf
  Emitter.Steady.inferred Emitter.Steady.element

end Cppward.Emit
