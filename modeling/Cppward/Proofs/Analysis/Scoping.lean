import Cppward.Analysis.Analyse
import Cppward.Proofs.Node.Parts
import Cppward.Proofs.Stateful

namespace Cppward.Analysis

open Stateful List Node

/-!
# Every node gets a scope

* `ScopesGrow` — a program that differs from an earlier one in its scopes only, where every node that
  belonged to a scope still does.
* `growsScopes_resolve` — assigning scopes is such a change.
* `scoped_resolve` — after it, every node of the tree belongs to a scope.
-/

/-- Only the scopes differ, and no node is taken out of its scope. -/
structure ScopesGrow (p q : Program) : Prop where
  root : q.root = p.root
  nodes : q.nodes = p.nodes
  parents : q.parents = p.parents
  size : q.scopeTable.size = p.scopeTable.size
  keeps : ∀ n, (p.scopeOf? n).isSome → (q.scopeOf? n).isSome

namespace ScopesGrow

variable {p q r : Program}

theorem refl (p : Program) : ScopesGrow p p := ⟨rfl, rfl, rfl, rfl, fun _ h => h⟩

theorem trans (p q r : Program) (h : ScopesGrow p q) (h' : ScopesGrow q r) : ScopesGrow p r where
  root := h'.root.trans h.root
  nodes := h'.nodes.trans h.nodes
  parents := h'.parents.trans h.parents
  size := h'.size.trans h.size
  keeps := fun n hn => h'.keeps n (h.keeps n hn)

theorem tree (h : ScopesGrow p q) : q.tree = p.tree := by
  rw [Program.tree, Program.tree, Program.node?, Program.node?, h.root, h.nodes]

theorem of_eq (hroot : q.root = p.root) (hnodes : q.nodes = p.nodes) (hparents : q.parents = p.parents)
    (htable : q.scopeTable = p.scopeTable) : ScopesGrow p q := by
  refine ⟨hroot, hnodes, hparents, by rw [htable], fun n hn => ?_⟩
  rwa [Program.scopeOf?, htable]

theorem setScope (p : Program) (n : Node) (s : Nat) : ScopesGrow p (p.setScope n (some s)) := by
  refine ⟨rfl, rfl, rfl, Array.size_setIfInBounds, fun m hm => ?_⟩
  rw [Program.scopeOf?] at hm ⊢
  split at hm
  · cases hm
  · rename_i hzero
    rw [if_neg hzero]
    by_cases h : n.id = m.id
    · have hlt : m.id < p.scopeTable.size := by
        by_contra hge
        rw [Array.getElem?_eq_none (Nat.le_of_not_lt hge)] at hm
        cases hm
      rw [Program.setScope, h, Array.getElem?_setIfInBounds_self_of_lt hlt]
      rfl
    · rwa [Program.setScope, Array.getElem?_setIfInBounds_ne h]

theorem modifyScope (p : Program) (id : Nat) (f : Scope → Scope) : ScopesGrow p (p.modifyScope id f) :=
  of_eq rfl rfl rfl rfl

theorem addVariable (p : Program) (scope : Nat) (defined defining : Node) :
    ScopesGrow p (p.addVariable scope defined defining) := of_eq rfl rfl rfl rfl

theorem enterScope (p : Program) (id : Nat) : ScopesGrow p (p.enterScope id).2 :=
  of_eq rfl rfl rfl rfl

theorem addScope (p : Program) (s : Scope) : ScopesGrow p (p.addScope s).2 := of_eq rfl rfl rfl rfl

end ScopesGrow

/-! ### Single nodes -/

section Visit

/-- Computations that let the scopes grow. -/
abbrev GrowsScopes {α : Type} (x : Build α) : Prop := Moves ScopesGrow x

variable {α β : Type}

theorem GrowsScopes.pure (a : α) : GrowsScopes (pure a) := Moves.pure ScopesGrow.refl a

theorem GrowsScopes.bind {x : Build α} {f : α → Build β} (hx : GrowsScopes x)
    (hf : ∀ a, GrowsScopes (f a)) : GrowsScopes (x >>= f) := Moves.bind ScopesGrow.trans hx hf

theorem GrowsScopes.get : GrowsScopes (get : Build Program) := Moves.get ScopesGrow.refl

theorem GrowsScopes.forM {f : α → Build Unit} (hf : ∀ a, GrowsScopes (f a)) (as : List α) :
    GrowsScopes (as.forM f) := Moves.forM ScopesGrow.refl ScopesGrow.trans hf as

theorem GrowsScopes.need (x : Option α) : GrowsScopes (Build.need x) := by
  cases x with
  | none => exact Moves.throw _
  | some a => exact .pure a

theorem GrowsScopes.unforeseen : GrowsScopes (Build.unforeseen : Build α) := Moves.throw _

theorem GrowsScopes.enter (id : Nat) : GrowsScopes (Build.enter id) :=
  Moves.modifyGet fun p => ScopesGrow.enterScope p id

theorem GrowsScopes.setScope (n : Node) (s : Nat) :
    GrowsScopes (modify (·.setScope n (some s)) : Build Unit) :=
  Moves.modify fun p => ScopesGrow.setScope p n s

theorem GrowsScopes.modifyScope (s : Nat) (f : Scope → Scope) :
    GrowsScopes (modify (·.modifyScope s f) : Build Unit) :=
  Moves.modify fun p => ScopesGrow.modifyScope p s f

theorem GrowsScopes.addVariable (s : Nat) (defined defining : Node) :
    GrowsScopes (modify (·.addVariable s defined defining) : Build Unit) :=
  Moves.modify fun p => ScopesGrow.addVariable p s defined defining

theorem GrowsScopes.ite {c : Prop} [Decidable c] {x y : Build α} (hx : GrowsScopes x)
    (hy : GrowsScopes y) : GrowsScopes (if c then x else y) := by
  split
  · exact hx
  · exact hy

theorem growsScopes_inheritScope (n : Node) : GrowsScopes (inheritScope n) := by
  refine .bind .get fun p => ?_
  split
  · exact .pure _
  · exact .bind (.need _) fun _ => .bind (.need _) fun s => .bind (.setScope n s) fun _ => .pure _

theorem growsScopes_enterFunction (scope : Nat) (definition : Node) :
    GrowsScopes (enterFunction scope definition) :=
  .bind (.need _) fun _ => .bind (.need _) fun _ => .modifyScope _ _

theorem growsScopes_openScope (call : Node) (scope : Nat) (inner : Option Nat) (i : Nat) (a : Node) :
    GrowsScopes (openScope call scope inner i a) := by
  cases inner with
  | none =>
    exact .ite (.bind .get fun _ => .bind (.enter _) fun _ => .setScope _ _)
      (.ite (.bind (.enter _) fun _ => .setScope _ _) (.pure _))
  | some inner =>
    exact .bind (.setScope _ _) fun _ => .ite (growsScopes_enterFunction _ _) (.pure _)

theorem growsScopes_enterVariable (a defined defining : Node) :
    GrowsScopes (enterVariable a defined defining) := by
  have hrest : GrowsScopes (do
      let p ← get
      let scope ← Build.need (p.scopeOf? a)
      modify (·.addVariable scope defined defining) : Build Unit) :=
    .bind .get fun _ => .bind (.need _) fun _ => .addVariable _ _ _
  exact .ite (.bind .unforeseen fun _ => hrest) hrest

theorem growsScopes_enterArgument (call a : Node) : GrowsScopes (enterArgument call a) := by
  rw [enterArgument]
  refine .ite (growsScopes_enterVariable _ _ _) (.ite .unforeseen (.ite ?_ (.ite ?_ (.pure _))))
  · split
    · exact .unforeseen
    · exact .ite (growsScopes_enterVariable _ _ _)
        (.ite (.forM (fun _ => growsScopes_enterVariable _ _ _) _) (.pure _))
  · exact .bind .get fun _ => .bind (.need _) fun _ =>
      .ite (.modifyScope _ _) (.modifyScope _ _)

/-- The node inherits a scope, and what follows lets the scopes grow. -/
def Inherits (n : Node) (x : Build Unit) : Prop :=
  ∃ f : Nat → Build Unit, x = inheritScope n >>= f ∧ ∀ s, GrowsScopes (f s)

theorem Inherits.growsScopes {n : Node} {x : Build Unit} (h : Inherits n x) : GrowsScopes x := by
  obtain ⟨f, rfl, hf⟩ := h
  exact .bind (growsScopes_inheritScope n) hf

theorem inherits_visitCall (call : Node) : Inherits call (visitCall call) := by
  refine ⟨_, rfl, fun scope => ?_⟩
  have hargs : ∀ inner, GrowsScopes (call.args.zipIdx.forM fun x => do
      openScope call scope inner x.2 x.1
      enterArgument call x.1) := fun inner => .forM
    (fun _ => .bind (growsScopes_openScope _ _ _ _ _) fun _ => growsScopes_enterArgument _ _) _
  exact .ite (.bind (.bind (.enter _) fun _ => .pure _) hargs) (.bind (.pure _) hargs)

theorem inherits_visitName (n : Node) : Inherits n (visitName n) := by
  refine ⟨_, rfl, fun scope => ?_⟩
  split
  · exact .pure _
  · exact .bind .get fun _ => .ite (.addVariable _ _ _) (.pure _)

theorem inherits_visitAssign (n : Node) : Inherits n (visitAssign n) := by
  refine ⟨_, rfl, fun scope => ?_⟩
  split
  · exact .unforeseen
  · exact .ite (.addVariable _ _ _)
      (.ite (.forM (fun _ => .ite (.addVariable _ _ _) (.pure _)) _) (.pure _))

theorem growsScopes_visitNode (n : Node) : GrowsScopes (visitNode n) := by
  rw [visitNode]
  split
  · exact (inherits_visitCall n).growsScopes
  · exact (inherits_visitName n).growsScopes
  · exact (inherits_visitAssign n).growsScopes
  · exact .bind .get fun _ => .ite (.bind (Moves.modifyGet fun p => ScopesGrow.addScope p {})
      fun _ => .setScope _ _) (.pure _)
  · exact .bind (growsScopes_inheritScope n) fun _ => .pure _

end Visit

/-! ### Trees -/

theorem resolve_eq (n : Node) : resolve n =
    (do
      visitNode n
      n.args.forM resolve
      n.func.toList.forM resolve
      n.type.toList.forM resolve) := by
  have hlist : ∀ ns : List Node, resolveList ns = ns.forM resolve := by
    intro ns
    induction ns with
    | nil => rfl
    | cons n ns ih =>
      rw [resolveList, ih]
      rfl
  have hoption : ∀ o : Option Node, resolveOption o = o.toList.forM resolve := by
    intro o
    cases o with
    | none => rfl
    | some n => simp [resolveOption]
  obtain ⟨info, kind, func, args, type⟩ := n
  rw [resolve, hlist, hoption, hoption]

/-- A node with a label in the range of the table. -/
def Program.HasPlace (p : Program) (n : Node) : Prop := n.id ≠ 0 ∧ n.id < p.scopeTable.size

section Trees

variable {p q : Program} {n : Node}

theorem Program.HasPlace.scopeOf?_setScope (h : p.HasPlace n) (s : Nat) :
    ((p.setScope n (some s)).scopeOf? n).isSome := by
  rw [scopeOf?, if_neg (by simpa using h.1), setScope, Array.getElem?_setIfInBounds_self_of_lt h.2]
  rfl

theorem ScopesGrow.hasPlace (h : ScopesGrow p q) {m : Node} (hm : p.HasPlace m) : q.HasPlace m := by
  rwa [Program.HasPlace, h.size]

theorem scoped_inheritScope {s : Nat} (hplace : p.HasPlace n)
    (h : (inheritScope n).run p = .ok (s, q)) : (q.scopeOf? n).isSome := by
  obtain ⟨p', _, hget, h⟩ := bind_eq_ok.mp h
  cases hget
  split at h
  · rename_i hsome
    cases pure_eq_ok.mp h
    simp [hsome]
  · obtain ⟨_, p₁, hholder, h⟩ := bind_eq_ok.mp h
    obtain ⟨s', p₂, hscope, h⟩ := bind_eq_ok.mp h
    obtain ⟨_, p₃, hset, h⟩ := bind_eq_ok.mp h
    cases hset
    cases pure_eq_ok.mp h
    have hgrow := ScopesGrow.trans _ _ _ (GrowsScopes.need _ _ _ _ hholder)
      (GrowsScopes.need _ _ _ _ hscope)
    exact (hgrow.hasPlace hplace).scopeOf?_setScope s

theorem Inherits.scope_isSome {x : Build Unit} (hx : Inherits n x) (hplace : p.HasPlace n)
    (h : x.run p = .ok ((), q)) : (q.scopeOf? n).isSome := by
  obtain ⟨f, rfl, hf⟩ := hx
  obtain ⟨s, p₁, hinherit, hrest⟩ := bind_eq_ok.mp h
  exact (hf s _ _ _ hrest).keeps n (scoped_inheritScope hplace hinherit)

theorem scoped_visitNode (hplace : p.HasPlace n) (h : (visitNode n).run p = .ok ((), q)) :
    (q.scopeOf? n).isSome := by
  rw [visitNode] at h
  split at h
  · exact (inherits_visitCall n).scope_isSome hplace h
  · exact (inherits_visitName n).scope_isSome hplace h
  · exact (inherits_visitAssign n).scope_isSome hplace h
  · obtain ⟨p', _, hget, h⟩ := bind_eq_ok.mp h
    cases hget
    split at h
    · obtain ⟨s, p₁, hadd, h⟩ := bind_eq_ok.mp h
      cases hadd
      cases h
      exact ((ScopesGrow.addScope p {}).hasPlace hplace).scopeOf?_setScope _
    · rename_i hsome
      cases pure_eq_ok.mp h
      rwa [Option.isNone_iff_eq_none, ← ne_eq, ← Option.isSome_iff_ne_none] at hsome
  · exact Inherits.scope_isSome ⟨_, rfl, fun _ => .pure _⟩ hplace h

theorem growsScopes_resolve (n : Node) : GrowsScopes (resolve n) := by
  induction n using partsInduction with
  | step n ih =>
    rw [resolve_eq]
    have hlist : ∀ ns : List Node, (∀ a ∈ ns, GrowsScopes (resolve a)) →
        GrowsScopes (ns.forM resolve) := by
      intro ns hns
      induction ns with
      | nil => exact .pure _
      | cons a ns ihns =>
        rw [forall_mem_cons] at hns
        exact .bind hns.1 fun _ => ihns hns.2
    refine .bind (growsScopes_visitNode n) fun _ => .bind (hlist _ ?_) fun _ =>
      .bind (hlist _ ?_) fun _ => hlist _ ?_
    · exact fun a ha => ih a (arg_mem_parts ha)
    · exact fun a ha => ih a (func_mem_parts (Option.mem_toList.mp ha))
    · exact fun a ha => ih a (type_mem_parts (Option.mem_toList.mp ha))

/-- **Once scopes are assigned, every node of the tree belongs to one.** -/
theorem scoped_resolve (n : Node) : ∀ {p q : Program}, (∀ m ∈ n.walk, p.HasPlace m) →
    (resolve n).run p = .ok ((), q) → ∀ m ∈ n.walk, (q.scopeOf? m).isSome := by
  induction n using partsInduction with
  | step n ih =>
    intro p q hplace h
    have hgrow : ∀ {ns : List Node}, GrowsScopes (ns.forM resolve) :=
      GrowsScopes.forM growsScopes_resolve _
    have hlist : ∀ {ns : List Node} {p q : Program}, (∀ a ∈ ns, a ∈ n.parts) →
        (∀ m ∈ n.walk, p.HasPlace m) → (ns.forM resolve).run p = .ok ((), q) →
          ∀ a ∈ ns, ∀ m ∈ a.walk, (q.scopeOf? m).isSome := by
      intro ns
      induction ns with
      | nil => exact fun _ _ _ a ha => absurd ha not_mem_nil
      | cons a ns ihns =>
        intro p q hparts hplace h
        rw [forall_mem_cons] at hparts
        obtain ⟨_, p₁, hfirst, hrest⟩ := bind_eq_ok.mp h
        have hgrow₁ := growsScopes_resolve a _ _ _ hfirst
        refine forall_mem_cons.mpr ⟨fun m hm => ?_, ?_⟩
        · refine (hgrow _ _ _ hrest).keeps m (ih a hparts.1 (fun m hm => ?_) hfirst m hm)
          exact hplace m (mem_walk_of_mem_parts hparts.1 hm)
        · exact ihns hparts.2 (fun m hm => hgrow₁.hasPlace (hplace m hm)) hrest
    rw [resolve_eq] at h
    obtain ⟨_, p₁, hnode, h⟩ := bind_eq_ok.mp h
    obtain ⟨_, p₂, hargs, h⟩ := bind_eq_ok.mp h
    obtain ⟨_, p₃, hfunc, htype⟩ := bind_eq_ok.mp h
    have hgrow₁ := growsScopes_visitNode n _ _ _ hnode
    have hgrow₂ := hgrow _ _ _ hargs
    have hgrow₃ := hgrow _ _ _ hfunc
    have hgrow₄ := hgrow _ _ _ htype
    have hplace₁ : ∀ m ∈ n.walk, p₁.HasPlace m := fun m hm => hgrow₁.hasPlace (hplace m hm)
    have hplace₂ : ∀ m ∈ n.walk, p₂.HasPlace m := fun m hm => hgrow₂.hasPlace (hplace₁ m hm)
    have hplace₃ : ∀ m ∈ n.walk, p₃.HasPlace m := fun m hm => hgrow₃.hasPlace (hplace₂ m hm)
    intro m hm
    rw [walk_eq] at hm
    rcases mem_cons.mp hm with rfl | hm
    · refine hgrow₄.keeps m (hgrow₃.keeps m (hgrow₂.keeps m ?_))
      exact scoped_visitNode (hplace m m.self_mem_walk) hnode
    · obtain ⟨part, hpart, hm⟩ := mem_flatMap.mp hm
      simp only [parts, mem_append, Option.mem_toList] at hpart
      rcases hpart with (hpart | hpart) | hpart
      · refine hgrow₄.keeps m (hlist (fun a ha => ?_) hplace₂ hfunc part (by simpa using hpart) m hm)
        exact func_mem_parts (Option.mem_toList.mp ha)
      · refine hgrow₄.keeps m (hgrow₃.keeps m (hlist (fun a ha => ?_) hplace₁ hargs part hpart m hm))
        exact arg_mem_parts ha
      · refine hlist (fun a ha => ?_) hplace₃ htype part (by simpa using hpart) m hm
        exact type_mem_parts (Option.mem_toList.mp ha)

end Trees

end Cppward.Analysis
