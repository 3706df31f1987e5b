import Cppward.Proofs.Analysis.Preparing
import Cppward.Proofs.Source.Grammatical

namespace Cppward

open List Node

/-!
# What is left of parentheses

A module that was read has parentheses where two or more pairs were written around an expression,
and no other marks.

* `Source.unmarked_of_readModule` — the marks of the grammar are gone once a module is read.
* `Analysis.parens_removed_iff` — one pair is removed around an expression, and nothing else is
  changed; so parentheses stay where one pair stands directly inside another.
-/

variable {kind : Kind} {func : Option Node} {args : List Node} {loc : Nat} {n module : Node}

namespace Source

/-- A tree without marks of the grammar. -/
def Unmarked (n : Node) : Prop := ∀ m ∈ n.walk, m.kind ≠ .wrapper

theorem unmarked_make : Unmarked (make kind func args loc) ↔
      kind ≠ .wrapper ∧ (∀ f ∈ func, Unmarked f) ∧ ∀ a ∈ args, Unmarked a :=
  forall_mem_walk_make

theorem unmarked_unwrap (h : n.Grammatical) (inside : Bool) : Unmarked (unwrap inside n) := by
  induction h generalizing inside with
  | @make kind func args loc hkind _ _ ihfunc ihargs =>
    have hargs : ∀ a ∈ args.map (unwrap false), Unmarked a :=
      forall_mem_map.mpr fun a ha => ihargs a ha false
    by_cases hwrapper : kind = .wrapper
    · subst hwrapper
      obtain ⟨a, rfl⟩ := length_eq_one_iff.mp hkind.2
      cases inside with
      | true => exact unmarked_make.mpr ⟨nofun, nofun, hargs⟩
      | false => exact ihargs a mem_cons_self true
    · rw [unwrap_of_ne_wrapper (n := make kind func args loc) inside hwrapper]
      refine unmarked_make.mpr ⟨hwrapper, fun f hf => ?_, hargs⟩
      obtain ⟨g, hg, rfl⟩ := Option.map_eq_some_iff.mp hf
      exact ihfunc g hg false

theorem unmarked_expandNamespace {placed : Node} (hmodule : Unmarked module)
    (h : expandNamespace module = .ok placed) : Unmarked placed := by
  have hargs : ∀ a ∈ module.args, Unmarked a := (forall_mem_walk_iff.mp hmodule).2.2.1
  rcases expandNamespace_cases h with
    ⟨rfl, -⟩ | ⟨before, statement, after, name, hsplit, -, hname, rfl⟩
  · exact hmodule
  rw [hsplit, forall_mem_append, forall_mem_cons] at hargs
  obtain ⟨hbefore, hstatement, hafter⟩ := hargs
  have hname : Unmarked name :=
    (forall_mem_walk_iff.mp hstatement).2.2.1 name (hname ▸ mem_cons_self)
  have hident : Unmarked (ident "namespace") := unmarked_make.mpr ⟨nofun, nofun, nofun⟩
  have hblock : Unmarked (ofBlock (after.filter isKept)) :=
    unmarked_make.mpr ⟨nofun, nofun, fun n hn => hafter n (mem_of_mem_filter hn)⟩
  have hcall : Unmarked (namespaceCall name (after.filter isKept)) :=
    unmarked_make.mpr ⟨nofun, fun f hf => Option.some.inj hf ▸ hident,
      forall_mem_cons.mpr ⟨hname, forall_mem_singleton.mpr hblock⟩⟩
  refine unmarked_make.mpr ⟨nofun, nofun, forall_mem_append.mpr ⟨fun n hn => ?_, ?_⟩⟩
  · exact hbefore n (mem_of_mem_filter hn)
  · exact forall_mem_singleton.mpr hcall

theorem unmarked_of_readModule {source : String}
    (h : readModule source = .ok module) : Unmarked module := by
  obtain ⟨nodes, hnodes, hplaced⟩ := exists_of_readModule h
  exact unmarked_expandNamespace (unmarked_unwrap hnodes false) hplaced

end Source

namespace Analysis

open Node

mutual
def withoutParens : Node → Node
  | ⟨info, kind, func, args, type⟩ =>
    match kind, args with
    | .parens, a :: _ => withoutParens a
    | kind, args => ⟨info, kind, withoutParensOption func, withoutParensList args, type⟩

def withoutParensOption : Option Node → Option Node
  | none => none
  | some n => some (withoutParens n)

def withoutParensList : List Node → List Node
  | [] => []
  | n :: ns => withoutParens n :: withoutParensList ns
end

theorem withoutParens_eq (n : Node) : withoutParens n =
    match n.kind, n.args with
    | .parens, a :: _ => withoutParens a
    | _, _ => { n with func := n.func.map withoutParens, args := n.args.map withoutParens } := by
  have hlist : ∀ ns, withoutParensList ns = ns.map withoutParens :=
    eq_map rfl fun _ _ => rfl
  obtain ⟨info, kind, func, args, type⟩ := n
  have hfunc : withoutParensOption func = func.map withoutParens := by cases func <;> rfl
  cases kind <;> cases args <;> simp [withoutParens, hlist, hfunc]

/-- Removing parentheses changes nothing but parentheses. -/
theorem withoutParens_removeParens (n : Node) :
    withoutParens (removeParens n).1 = withoutParens n ∧
      withoutParens (removeInside n).1 = withoutParens n := by
  induction n using Node.induction with
  | step n hfunc hargs _ =>
    have hinside : withoutParens (removeInside n).1 = withoutParens n := by
      have hf : (n.func.map fun f => (removeParens f).1).map withoutParens = n.func.map withoutParens := by
        rw [Option.map_map]
        exact Option.map_congr fun f hf => (hfunc f hf).1
      have ha : (n.args.map fun a => (removeParens a).1).map withoutParens = n.args.map withoutParens := by
        rw [map_map]
        exact map_congr_left fun a ha => (hargs a ha).1
      rw [removeInside_eq, withoutParens_eq, withoutParens_eq n]
      cases hkind : n.kind <;> simp only [hf, ha]
      cases has : n.args with
      | nil => simp
      | cons a as => exact (hargs a (by simp [has])).1
    refine ⟨?_, hinside⟩
    rw [removeParens_eq]
    split
    · rename_i a as hkind has
      rw [(hargs a (by simp [has])).2, withoutParens_eq n, hkind, has]
    · rfl
    · exact hinside

/-- No parentheses stand directly inside others. -/
def SingleParens (n : Node) : Prop :=
  ∀ m ∈ n.walk, m.kind = .parens → ∀ a ∈ m.args, a.kind ≠ .parens

theorem singleParens_make :
    SingleParens (make kind func args loc) ↔ (kind = .parens → ∀ a ∈ args, a.kind ≠ .parens) ∧
      (∀ f ∈ func, SingleParens f) ∧ ∀ a ∈ args, SingleParens a :=
  forall_mem_walk_make

/-- Parentheses stay exactly where they stand directly inside others. -/
theorem forall_removeParens_iff (h : n.Grammatical) :
    ((∀ m ∈ (removeParens n).1.walk, m.kind ≠ .parens) ↔ SingleParens n) ∧
      ((∀ m ∈ (removeInside n).1.walk, m.kind ≠ .parens) ↔ n.kind ≠ .parens ∧ SingleParens n) := by
  induction h with
  | @make kind func args loc hkind _ _ ihfunc ihargs =>
    have hinside : (∀ m ∈ (removeInside (make kind func args loc)).1.walk, m.kind ≠ .parens) ↔
        kind ≠ .parens ∧ SingleParens (make kind func args loc) := by
      rw [removeInside_eq, forall_mem_walk_iff, singleParens_make]
      refine and_congr_right fun hparens => ?_
      have hfunc : (∀ f ∈ func.map fun f => (removeParens f).1, ∀ m ∈ f.walk, m.kind ≠ .parens) ↔
          ∀ f ∈ func, SingleParens f := by
        cases func with
        | none => simp
        | some f => simpa using (ihfunc f rfl).1
      have hargs : (∀ a ∈ args.map fun a => (removeParens a).1, ∀ m ∈ a.walk, m.kind ≠ .parens) ↔
          ∀ a ∈ args, SingleParens a := by
        rw [forall_mem_map]
        exact forall₂_congr fun a ha => (ihargs a ha).1
      exact ⟨fun ⟨hf, ha, _⟩ => ⟨fun hkind => absurd hkind hparens, hfunc.mp hf, hargs.mp ha⟩,
        fun ⟨_, hf, ha⟩ => ⟨hfunc.mpr hf, hargs.mpr ha, nofun⟩⟩
    refine ⟨?_, hinside⟩
    by_cases hparens : kind = .parens
    · subst hparens
      obtain ⟨a, rfl⟩ := length_eq_one_iff.mp hkind.2
      have hnone : func = none := by simpa using hkind.1
      subst hnone
      change (∀ m ∈ (removeInside a).1.walk, m.kind ≠ .parens) ↔ _
      rw [(ihargs a mem_cons_self).2, singleParens_make]
      simp
    · have hsame : (removeParens (make kind func args loc)).1 = (removeInside (make kind func args loc)).1 := by
        rw [removeParens_eq]
        cases kind <;> first | rfl | exact absurd rfl hparens
      rw [hsame, hinside]
      exact and_iff_right hparens

/-- **Parentheses.**  When the redundant parentheses of a module that was read are removed, nothing but
    parentheses changes and no marks of the grammar are there.  No parentheses are left exactly if
    none of the module stand directly inside others. -/
theorem parens_removed_iff {source : String} {module : Node}
    (h : Source.readModule source = .ok module) :
    withoutParens (removeParens module).1 = withoutParens module ∧
    (∀ m ∈ (removeParens module).1.walk, m.kind ≠ .wrapper) ∧
    ((∀ m ∈ (removeParens module).1.walk, m.kind ≠ .parens) ↔
      ∀ m ∈ module.walk, m.kind = .parens → ∀ a ∈ m.args, a.kind ≠ .parens) := by
  have hmarks := forall_mem_removeParens (P := fun _ kind _ => kind ≠ .wrapper) module
    (Source.unmarked_of_readModule h)
  exact ⟨(withoutParens_removeParens module).1, hmarks.1,
    (forall_removeParens_iff (Source.grammatical_of_readModule h).1).1⟩

/-- Of the parentheses in `f(((x)))` none are left. -/
theorem parens_removed_pair : ∃ module, Source.readModule "f(((x)))" = .ok module ∧
    module.walk.any (·.kind == .parens) = true ∧
    withoutParens (removeParens module).1 = withoutParens module ∧
    ∀ m ∈ (removeParens module).1.walk, m.kind ≠ .wrapper ∧ m.kind ≠ .parens := by
  have hread : (Source.readModule "f(((x)))").toOption.map (fun module =>
      module.walk.any (·.kind == .parens) && module.walk.all fun m =>
        m.kind != .parens || m.args.all (·.kind != .parens)) = some true := by
    decide +kernel
  obtain ⟨module, h, hkinds⟩ := Failing.exists_of_toOption hread
  obtain ⟨hsome, hsingle⟩ : module.walk.any (·.kind == .parens) = true ∧
      ∀ m ∈ module.walk, m.kind = .parens → ∀ a ∈ m.args, a.kind ≠ .parens := by
    simpa [or_iff_not_imp_left] using hkinds
  obtain ⟨hrest, hmarks, hparens⟩ := parens_removed_iff h
  exact ⟨module, h, hsome, hrest, fun m hm => ⟨hmarks m hm, hparens.mpr hsingle m hm⟩⟩

/-- Of those in `f((((x))))` one pair is left. -/
theorem parens_left_inside : (Source.readModule "f((((x))))").toOption.map (fun module =>
    (removeParens module).1.walk.countP (·.kind == .parens)) = some 1 := by
  decide +kernel

end Analysis

end Cppward
