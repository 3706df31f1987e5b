import Cppward.Macro.Expansion
import Cppward.Proofs.Build.Files
import Mathlib.Logic.Relation

namespace Cppward.Macro

open Relation List
open Node (ident ofBlock)

/-!
# Scopes of macros

A block opens a scope for the macros that are defined in it.  When a visit of a node returns, the scopes
should be those it started with, and the innermost may have new definitions.  This is so unless the visit
came upon a block that is itself replaced by a macro: its scope stays open, and what is defined in the
replacement is in force behind the block.

* `findResult`, `perform_visit` — a visit in two steps: a macro is looked for, then its result or the parts
  of the node are visited.
* `Visit`, `Plan`, `Makes` — the visits that a visit makes, with the states they start from.
* `IsKept` — what every visit keeps, by induction on the depth (`IsKept.returns`, `IsKept.makes`).
* `definitions_block_scoped` — the scopes are kept exactly if nothing is left open, and the definitions in a
  block that is not replaced are never tried behind it.
-/

variable {n : Node}
variable {σ ρ : Type} {bodies : Bodies σ ρ}

/-! ### A visit in two steps -/

/-- Looks for a macro that applies to a node.  Its result is noted, but not visited yet. -/
def findResult (bodies : Bodies σ ρ) (n : Node) : List (Rule × ρ) → Walking σ ρ (Option Node)
  | [] => return none
  | (rule, body) :: rules => do
    let pattern ← Walking.lift (bodies.current rule.pattern)
    match matchNode rule.params pattern n with
    | .error fault => throw (.expansion fault)
    | .ok none => findResult bodies n rules
    | .ok (some bindings) =>
      match ← Walking.lift (bodies.run body bindings) with
      | none => findResult bodies n rules
      | some result =>
        if result.id == n.id then
          findResult bodies n rules
        else
          let result ← labelNew result
          modify fun w =>
            { w with replacements := w.replacements.filter (·.1 != n.id) ++ [(n.id, result)] }
          return some result

/-- The rules are tried in turn, and the first result is walked. -/
theorem tryRules_eq (walk : Node → Walking σ ρ Unit) (n : Node) (rules : List (Rule × ρ)) :
    tryRules bodies walk n rules = do
      match ← findResult bodies n rules with
      | none => return false
      | some result => do
        walk result
        return true := by
  induction rules with
  | nil => rw [tryRules, findResult, pure_bind]
  | cons r rules ih =>
    obtain ⟨rule, body⟩ := r
    rw [tryRules, findResult, bind_assoc]
    refine bind_congr fun pattern => ?_
    rcases matchNode rule.params pattern n with fault | _ | bindings
    · rfl
    · exact ih
    · dsimp only
      rw [bind_assoc]
      refine bind_congr fun result => ?_
      cases result with
      | none => exact ih
      | some result =>
        dsimp only
        split
        · exact ih
        · simp only [bind_assoc, pure_bind]

/-- The state in which macros are tried on a node: a block opens a scope. -/
def Walk.enter (n : Node) (w : Walk σ ρ) : Walk σ ρ :=
  if n.kind = .block then { w with scopes := [] :: w.scopes } else w

def visited (n : Node) : List Node := if n.kind = .block then n.args else n.func.toList ++ n.args

/-- The end of a visit: a block goes back to the scopes around it, and a definition takes force. -/
def leave (bodies : Bodies σ ρ) (n : Node) (outer : List (List (Rule × ρ))) : Walking σ ρ Unit :=
  if n.kind = .block then modify fun w => { w with scopes := outer }
  else if n.isCallOf "defmacro" then define bodies n
  else pure ()

/-- What a visit goes on with when it is known whether a macro applies. -/
def proceed (bodies : Bodies σ ρ) (depth : Nat) (n : Node) (outer : List (List (Rule × ρ))) :
    Option Node → Walking σ ρ Unit
  | some result => visit bodies depth result
  | none => do
    (visited n).forM (visit bodies depth)
    leave bodies n outer

theorem perform_visit (depth : Nat) (hn : n.kind ≠ .module) (w : Walk σ ρ) :
    (visit bodies (depth + 1) n).perform w =
      (findResult bodies n w.scopes.flatten >>= proceed bodies depth n w.scopes).perform (w.enter n) := by
  by_cases hblock : n.kind = .block
  · rw [visit, hblock]
    simp only [tryRules_eq, bind_assoc, Action.perform_get_bind, Action.perform_modify_bind, Walk.enter,
      hblock, if_true, flatten_cons, nil_append]
    refine congrArg (Action.perform · _) (bind_congr fun result => ?_)
    cases result <;> simp [proceed, visited, leave, hblock]
  · rw [visit]
    split
    · exact absurd ‹_› hn
    · exact absurd ‹_› hblock
    · simp only [tryRules_eq, bind_assoc, Action.perform_get_bind]
      rw [Walk.enter, if_neg hblock]
      refine congrArg (Action.perform · _) (bind_congr fun result => ?_)
      cases result with
      | none => cases hfunc : n.func <;> simp [proceed, visited, leave, hblock, hfunc]
      | some result => simp [proceed]

/-! ### What has no effect on scopes -/

/-- The action neither changes scopes nor defines macros. -/
def KeepsScopes {α : Type} (x : Walking σ ρ α) : Prop :=
  ∀ w, (x.perform w).2.scopes = w.scopes ∧ (x.perform w).2.defined = w.defined

namespace KeepsScopes

variable {α β : Type}

theorem bind {x : Walking σ ρ α} {f : α → Walking σ ρ β} (hx : KeepsScopes x)
    (hf : ∀ a, KeepsScopes (f a)) : KeepsScopes (x >>= f) := by
  intro w
  rw [Action.perform_bind]
  have hxw := hx w
  rcases h : x.perform w with ⟨e | a, t⟩ <;> rw [h] at hxw
  · exact hxw
  · have hft := hf a t
    exact ⟨hft.1.trans hxw.1, hft.2.trans hxw.2⟩

theorem lift (a : Action σ α) : KeepsScopes (Walking.lift a : Walking σ ρ α) := by
  intro w
  rw [Walking.lift, Action.perform_onPart]
  exact ⟨rfl, rfl⟩

theorem findResult (bodies : Bodies σ ρ) (n : Node) (rules : List (Rule × ρ)) :
    KeepsScopes (findResult bodies n rules) := by
  induction rules with
  | nil => exact fun w => ⟨rfl, rfl⟩
  | cons r rules ih =>
    obtain ⟨rule, body⟩ := r
    rw [Macro.findResult]
    refine (lift _).bind fun pattern => ?_
    rcases matchNode rule.params pattern n with fault | _ | bindings
    · exact fun w => ⟨rfl, rfl⟩
    · exact ih
    · refine (lift _).bind fun result => ?_
      cases result with
      | none => exact ih
      | some result =>
        dsimp only
        split
        · exact ih
        · exact fun w => ⟨rfl, rfl⟩

end KeepsScopes

/-! ### Visits -/

/-- A visit: how deep it may go, the node, and the state that it starts from. -/
structure Visit (σ ρ : Type) where
  depth : Nat
  node : Node
  start : Walk σ ρ

namespace Visit

/-- The macros that are tried on the node, in this order. -/
def tried (v : Visit σ ρ) : List (Rule × ρ) := v.start.scopes.flatten

/-- The visit comes to an end without a failure, in the state `w`. -/
def Returns (bodies : Bodies σ ρ) (v : Visit σ ρ) (w : Walk σ ρ) : Prop :=
  (visit bodies v.depth v.node).perform v.start = (.ok (), w)

/-- The outcome of the search for a macro that applies to the node. -/
def Finds (bodies : Bodies σ ρ) (v : Visit σ ρ) (result : Option Node) (w : Walk σ ρ) : Prop :=
  (findResult bodies v.node v.tried).perform (v.start.enter v.node) = (.ok result, w)

/-- A macro applies to the node. -/
def IsReplaced (bodies : Bodies σ ρ) (v : Visit σ ρ) : Prop := ∃ result w, v.Finds bodies (some result) w

end Visit

/-- The nodes that a visit visits one after the other, the state before the first of them, and what is
    done in the end. -/
inductive Plan (bodies : Bodies σ ρ) (v : Visit σ ρ) : List Node → Walk σ ρ → Walking σ ρ Unit → Prop
  | module (hkind : v.node.kind = .module) :
      Plan bodies v v.node.args { v.start with scopes := [[]] } (pure ())
  | result {result : Node} {w : Walk σ ρ} (hkind : v.node.kind ≠ .module)
      (h : v.Finds bodies (some result) w) : Plan bodies v [result] w (pure ())
  | parts {w : Walk σ ρ} (hkind : v.node.kind ≠ .module) (h : v.Finds bodies none w) :
      Plan bodies v (visited v.node) w (leave bodies v.node v.start.scopes)

/-- One visit makes another, when it has visited the nodes that come before. -/
inductive Makes (bodies : Bodies σ ρ) : Visit σ ρ → Visit σ ρ → Prop
  | intro {v : Visit σ ρ} {depth : Nat} {before after : List Node} {n : Node} {w w' : Walk σ ρ}
      {last : Walking σ ρ Unit} (hdepth : v.depth = depth + 1)
      (hplan : Plan bodies v (before ++ n :: after) w last)
      (hbefore : (before.forM (visit bodies depth)).perform w = (.ok (), w')) :
      Makes bodies v ⟨depth, n, w'⟩

/-- The visits that are made in the course of a visit. -/
def Inside (bodies : Bodies σ ρ) : Visit σ ρ → Visit σ ρ → Prop := TransGen (Makes bodies)

/-- Two visits on one level: the second one starts when the first one and those of the nodes `between` have
    returned. -/
def Precedes (bodies : Bodies σ ρ) (v v' : Visit σ ρ) : Prop :=
  ∃ between : List Node, v'.depth = v.depth ∧
    ((v.node :: between).forM (visit bodies v.depth)).perform v.start = (.ok (), v'.start)

/-- In the course of a walk, the second visit is made behind the first one, and not inside it. -/
def Behind (bodies : Bodies σ ρ) (walk v v' : Visit σ ρ) : Prop :=
  ∃ u u', Inside bodies walk u ∧ Precedes bodies u u' ∧ ReflTransGen (Makes bodies) u v ∧
    ReflTransGen (Makes bodies) u' v'

variable {v v' : Visit σ ρ} {ns : List Node} {w w' : Walk σ ρ} {last : Walking σ ρ Unit} {depth : Nat}

theorem Plan.perform (h : Plan bodies v ns w last) (hdepth : v.depth = depth + 1) :
    (visit bodies v.depth v.node).perform v.start =
      (ns.forM (visit bodies depth) >>= fun _ => last).perform w := by
  rw [hdepth]
  cases h with
  | module hkind =>
    rw [visit, hkind]
    simp
  | @result result w hkind h =>
    rw [perform_visit depth hkind, ← Visit.tried, Action.perform_bind_ok h, proceed]
    simp
  | parts hkind h => rw [perform_visit depth hkind, ← Visit.tried, Action.perform_bind_ok h, proceed]

theorem Visit.Returns.exists_plan (h : v.Returns bodies w') :
    ∃ depth ns w last, v.depth = depth + 1 ∧ Plan bodies v ns w last := by
  cases hdepth : v.depth with
  | zero =>
    rw [Returns, hdepth, visit] at h
    cases h
  | succ depth =>
    refine ⟨depth, ?_⟩
    by_cases hkind : v.node.kind = .module
    · exact ⟨_, _, _, rfl, .module hkind⟩
    · rw [Returns, hdepth, perform_visit depth hkind, Action.perform_bind_eq_ok] at h
      obtain ⟨result, w, hfinds, -⟩ := h
      cases result with
      | none => exact ⟨_, _, _, rfl, .parts hkind hfinds⟩
      | some result => exact ⟨_, _, _, rfl, .result hkind hfinds⟩

theorem Plan.perform_eq_ok (h : Plan bodies v ns w last) (hdepth : v.depth = depth + 1)
    (hreturns : v.Returns bodies w') :
    ∃ t, (ns.forM (visit bodies depth)).perform w = (.ok (), t) ∧ last.perform t = (.ok (), w') := by
  rw [Visit.Returns, h.perform hdepth, Action.perform_bind_eq_ok] at hreturns
  obtain ⟨⟨⟩, t, ht, hlast⟩ := hreturns
  exact ⟨t, ht, hlast⟩

theorem forM_cons_eq_ok {f : Node → Walking σ ρ Unit} :
    ((n :: ns).forM f).perform w = (.ok (), w') ↔
      ∃ t, (f n).perform w = (.ok (), t) ∧ (ns.forM f).perform t = (.ok (), w') := by
  rw [forM_eq_forM, forM_cons, Action.perform_bind_eq_ok]
  exact ⟨fun ⟨⟨⟩, t, h⟩ => ⟨t, h⟩, fun ⟨t, h⟩ => ⟨⟨⟩, t, h⟩⟩

theorem forM_append_eq_ok {f : Node → Walking σ ρ Unit} {before : List Node} :
    ((before ++ ns).forM f).perform w = (.ok (), w') ↔
      ∃ t, (before.forM f).perform w = (.ok (), t) ∧ (ns.forM f).perform t = (.ok (), w') := by
  rw [forM_eq_forM, forM_append, Action.perform_bind_eq_ok]
  exact ⟨fun ⟨⟨⟩, t, h⟩ => ⟨t, h⟩, fun ⟨t, h⟩ => ⟨⟨⟩, t, h⟩⟩

/-! ### What visits keep -/

/-- Puts a definition into the innermost scope. -/
def addRule (r : Rule × ρ) : List (List (Rule × ρ)) → List (List (Rule × ρ))
  | inner :: outer => (r :: inner) :: outer
  | [] => [[r]]

/-- A definition that takes force gets the next number. -/
theorem define_eq_ok (h : (define bodies n).perform w = (.ok (), w')) :
    ∃ r : Rule × ρ, r.1.index = w.defined ∧ w'.defined = w.defined + 1 ∧
      w'.scopes = addRule r w.scopes := by
  rw [define, Action.perform_get_bind] at h
  rcases hrule : Rule.ofCall w.defined n with fault | rule
  · rw [hrule] at h
    cases h
  · rw [hrule] at h
    have hindex : rule.index = w.defined := by
      unfold Rule.ofCall at hrule
      split at hrule
      · simp only [bind, Except.bind, throw, throwThe, MonadExceptOf.throw, pure, Except.pure] at hrule
        split at hrule
        · cases hrule
        · split at hrule
          · cases hrule
          · split at hrule
            · cases hrule
            · cases hrule
              rfl
      · cases hrule
    dsimp only at h
    rw [Action.perform_modify_bind, Action.perform_bind_eq_ok] at h
    obtain ⟨body, t, hbody, hlast⟩ := h
    obtain ⟨hscopes, hdefined⟩ := KeepsScopes.lift (bodies.define rule w.replacements)
      { w with defined := w.defined + 1 }
    rw [hbody] at hscopes hdefined
    cases hlast
    refine ⟨(rule, body), hindex, hdefined, ?_⟩
    dsimp only at hscopes ⊢
    rw [hscopes]
    cases w.scopes <;> rfl

/-- What a visit begins with: a module has scopes of its own, and a block one more. -/
theorem Plan.start_cases (h : Plan bodies v ns w last) :
    w.defined = v.start.defined ∧ (v.node.kind = .module ∧ w.scopes = [[]] ∨
      v.node.kind ≠ .module ∧ w.scopes = (v.start.enter v.node).scopes) := by
  have hdefined : (v.start.enter v.node).defined = v.start.defined := by
    unfold Walk.enter
    split <;> rfl
  have hfinds {result : Option Node} (hfinds : v.Finds bodies result w) :
      w.scopes = (v.start.enter v.node).scopes ∧ w.defined = v.start.defined := by
    have hkeeps := KeepsScopes.findResult bodies v.node v.tried (v.start.enter v.node)
    rw [show (findResult bodies v.node v.tried).perform (v.start.enter v.node) = (.ok result, w) from
      hfinds] at hkeeps
    exact ⟨hkeeps.1, hkeeps.2.trans hdefined⟩
  cases h with
  | module hkind => exact ⟨rfl, .inl ⟨hkind, rfl⟩⟩
  | result hkind h | parts hkind h => exact ⟨(hfinds h).2, .inr ⟨hkind, (hfinds h).1⟩⟩

/-- What a visit ends with: a block goes back to the scopes around it, and a definition takes force. -/
theorem Plan.end_cases (h : Plan bodies v ns w last) {t : Walk σ ρ}
    (hlast : last.perform t = (.ok (), w')) :
    w' = t ∨ v.node.kind = .block ∧ w' = { t with scopes := v.start.scopes } ∨
      ∃ r : Rule × ρ, r.1.index = t.defined ∧ w'.defined = t.defined + 1 ∧
        w'.scopes = addRule r t.scopes := by
  cases h with
  | module | result =>
    cases hlast
    exact .inl rfl
  | parts =>
    unfold leave at hlast
    split at hlast
    · cases hlast
      exact .inr (.inl ⟨‹_›, rfl⟩)
    · split at hlast
      · exact .inr (.inr (define_eq_ok hlast))
      · cases hlast
        exact .inl rfl

theorem Walk.scopes_enter_of_block (hkind : n.kind = .block) :
    (w.enter n).scopes = [] :: w.scopes := by
  rw [enter, if_pos hkind]

theorem Walk.scopes_enter_of_ne (hkind : n.kind ≠ .block) : (w.enter n).scopes = w.scopes := by
  rw [enter, if_neg hkind]

/-- A property of the scopes and of the number of definitions that no step of a visit destroys. -/
structure IsKept (I : Walk σ ρ → Prop) : Prop where
  congr : ∀ {w w' : Walk σ ρ}, w'.scopes = w.scopes → w'.defined = w.defined → I w → I w'
  reset : ∀ {w : Walk σ ρ}, I w → I { w with scopes := [[]] }
  enter : ∀ {w : Walk σ ρ}, I w → I { w with scopes := [] :: w.scopes }
  restore : ∀ {w w' : Walk σ ρ}, I w → I w' → w.defined ≤ w'.defined → I { w' with scopes := w.scopes }
  define : ∀ {w w' : Walk σ ρ} {r : Rule × ρ}, r.1.index = w.defined → w'.defined = w.defined + 1 →
    w'.scopes = addRule r w.scopes → I w → I w'

namespace IsKept

variable {I : Walk σ ρ → Prop}

theorem plan (hI : IsKept I) (h : Plan bodies v ns w last) (hv : I v.start) : I w := by
  obtain ⟨hdefined, ⟨-, hscopes⟩ | ⟨-, hscopes⟩⟩ := h.start_cases
  · exact hI.congr (w := { v.start with scopes := [[]] }) hscopes hdefined (hI.reset hv)
  · by_cases hblock : v.node.kind = .block
    · rw [Walk.scopes_enter_of_block hblock] at hscopes
      exact hI.congr (w := { v.start with scopes := [] :: v.start.scopes }) hscopes hdefined (hI.enter hv)
    · rw [Walk.scopes_enter_of_ne hblock] at hscopes
      exact hI.congr hscopes hdefined hv

theorem finish (hI : IsKept I) (h : Plan bodies v ns w last) (hv : I v.start) {t : Walk σ ρ} (ht : I t)
    (hle : v.start.defined ≤ t.defined) (hlast : last.perform t = (.ok (), w')) :
    I w' ∧ t.defined ≤ w'.defined := by
  obtain rfl | ⟨-, rfl⟩ | ⟨r, hindex, hdefined, hscopes⟩ := h.end_cases hlast
  · exact ⟨ht, Nat.le_refl _⟩
  · exact ⟨hI.restore hv ht hle, Nat.le_refl _⟩
  · exact ⟨hI.define hindex hdefined hscopes ht, by omega⟩

theorem forM_of_visit {f : Node → Walking σ ρ Unit}
    (hf : ∀ {n : Node} {w w' : Walk σ ρ}, I w → (f n).perform w = (.ok (), w') →
      I w' ∧ w.defined ≤ w'.defined) (ns : List Node) {w w' : Walk σ ρ} (hw : I w)
    (h : (ns.forM f).perform w = (.ok (), w')) : I w' ∧ w.defined ≤ w'.defined := by
  induction ns generalizing w with
  | nil =>
    cases h
    exact ⟨hw, Nat.le_refl _⟩
  | cons n ns ih =>
    obtain ⟨t, hn, hns⟩ := forM_cons_eq_ok.mp h
    obtain ⟨ht, hle⟩ := hf hw hn
    obtain ⟨hw', hle'⟩ := ih ht hns
    exact ⟨hw', Nat.le_trans hle hle'⟩

/-- **A visit keeps** what its steps keep, and the number of definitions grows. -/
theorem returns (hI : IsKept I) (hv : I v.start) (h : v.Returns bodies w') :
    I w' ∧ v.start.defined ≤ w'.defined := by
  obtain ⟨depth, n, w⟩ := v
  induction depth generalizing n w w' with
  | zero =>
    rw [Visit.Returns, visit] at h
    cases h
  | succ depth ih =>
    obtain ⟨_, ns, s, last, hdepth, hplan⟩ := h.exists_plan
    obtain rfl := Nat.succ.inj hdepth
    obtain ⟨t, ht, hlast⟩ := hplan.perform_eq_ok rfl h
    obtain ⟨hIt, hle⟩ := forM_of_visit (fun {n w w'} hw h => ih n w hw h) ns (hI.plan hplan hv) ht
    have hle' : w.defined ≤ t.defined := hplan.start_cases.1 ▸ hle
    obtain ⟨hw', hle''⟩ := hI.finish hplan hv hIt hle' hlast
    exact ⟨hw', Nat.le_trans hle' hle''⟩

theorem forM (hI : IsKept I) {depth : Nat} (ns : List Node) (hw : I w)
    (h : (ns.forM (visit bodies depth)).perform w = (.ok (), w')) : I w' ∧ w.defined ≤ w'.defined :=
  forM_of_visit (fun {n w _} hw h => hI.returns (v := ⟨depth, n, w⟩) hw h) ns hw h

theorem makes (hI : IsKept I) (hv : I v.start) (h : Makes bodies v v') :
    I v'.start ∧ v.start.defined ≤ v'.start.defined := by
  cases h with
  | intro hdepth hplan hbefore =>
    obtain ⟨hw', hle⟩ := hI.forM _ (hI.plan hplan hv) hbefore
    exact ⟨hw', hplan.start_cases.1 ▸ hle⟩

theorem makes_star (hI : IsKept I) (hv : I v.start) (h : ReflTransGen (Makes bodies) v v') :
    I v'.start ∧ v.start.defined ≤ v'.start.defined := by
  induction h with
  | refl => exact ⟨hv, Nat.le_refl _⟩
  | tail _ hmakes ih =>
    obtain ⟨hstart, hle⟩ := hI.makes ih.1 hmakes
    exact ⟨hstart, Nat.le_trans ih.2 hle⟩

end IsKept

/-- Macros are numbered in the order of their definitions, so those in force have smaller numbers than the
    next one gets. -/
def Indexed (w : Walk σ ρ) : Prop := ∀ r ∈ w.scopes.flatten, r.1.index < w.defined

/-- None of the macros with the numbers from `first` to `last` is in force, and they are all defined. -/
def Past (first last : Nat) (w : Walk σ ρ) : Prop :=
  (∀ r ∈ w.scopes.flatten, r.1.index < first ∨ last ≤ r.1.index) ∧ last ≤ w.defined

theorem mem_flatten_addRule {r s : Rule × ρ} {scopes : List (List (Rule × ρ))} :
    s ∈ (addRule r scopes).flatten ↔ s = r ∨ s ∈ scopes.flatten := by
  cases scopes <;> simp [addRule]

theorem isKept_true : IsKept fun _ : Walk σ ρ => True :=
  ⟨fun _ _ _ => ⟨⟩, fun _ => ⟨⟩, fun _ => ⟨⟩, fun _ _ _ => ⟨⟩, fun _ _ _ _ => ⟨⟩⟩

theorem isKept_nonempty : IsKept fun w : Walk σ ρ => w.scopes ≠ [] where
  congr hscopes _ h := hscopes ▸ h
  reset _ := cons_ne_nil _ _
  enter _ := cons_ne_nil _ _
  restore h _ _ := h
  define _ _ hscopes _ := by
    rw [hscopes]
    unfold addRule
    split <;> exact cons_ne_nil _ _

theorem isKept_indexed : IsKept (Indexed : Walk σ ρ → Prop) where
  congr hscopes hdefined h := by
    unfold Indexed
    rw [hscopes, hdefined]
    exact h
  reset _ := by simp [Indexed]
  enter h := by simpa [Indexed] using h
  restore h _ hle r hr := Nat.lt_of_lt_of_le (h r hr) hle
  define hindex hdefined hscopes h s hs := by
    rw [hscopes, mem_flatten_addRule] at hs
    rcases hs with rfl | hs
    · omega
    · have := h s hs
      omega

theorem isKept_past (first last : Nat) : IsKept (Past first last : Walk σ ρ → Prop) where
  congr hscopes hdefined h := by
    unfold Past
    rw [hscopes, hdefined]
    exact h
  reset h := ⟨by simp, h.2⟩
  enter h := ⟨by simpa using h.1, h.2⟩
  restore h h' _ := ⟨h.1, h'.2⟩
  define hindex hdefined hscopes h := by
    refine ⟨fun s hs => ?_, by have := h.2; omega⟩
    rw [hscopes, mem_flatten_addRule] at hs
    rcases hs with rfl | hs
    · exact .inr (hindex ▸ h.2)
    · exact h.1 s hs

/-! ### Visits that return -/

/-- A visit that returns, around one of those it makes. -/
theorem Makes.split (h : Makes bodies v v') (hreturns : v.Returns bodies w') :
    ∃ before after w last t t', v.depth = v'.depth + 1 ∧
      Plan bodies v (before ++ v'.node :: after) w last ∧
      (before.forM (visit bodies v'.depth)).perform w = (.ok (), v'.start) ∧ v'.Returns bodies t ∧
      (after.forM (visit bodies v'.depth)).perform t = (.ok (), t') ∧ last.perform t' = (.ok (), w') := by
  cases h with
  | @intro depth before after n w w₁ last hdepth hplan hbefore =>
    obtain ⟨t', ht', hlast⟩ := hplan.perform_eq_ok hdepth hreturns
    obtain ⟨_, hbefore', hrest⟩ := forM_append_eq_ok.mp ht'
    obtain rfl : _ = w₁ := (Prod.mk.inj (hbefore'.symm.trans hbefore)).2
    obtain ⟨t, hn, hafter⟩ := forM_cons_eq_ok.mp hrest
    exact ⟨before, after, w, last, t, t', hdepth, hplan, hbefore, hn, hafter, hlast⟩

theorem Visit.Returns.unique {w₁ w₂ : Walk σ ρ} (h₁ : v.Returns bodies w₁) (h₂ : v.Returns bodies w₂) :
    w₁ = w₂ :=
  (Prod.mk.inj (h₁.symm.trans h₂)).2

/-! ### Scopes that stay open -/

/-- The visit does not close all the scopes that it opens: it is about a block that is replaced, or such a
    block is met in its course and no block closes what it leaves.  A module begins with scopes of its
    own. -/
inductive LeavesOpen (bodies : Bodies σ ρ) : Visit σ ρ → Prop
  | module {v : Visit σ ρ} (hkind : v.node.kind = .module) : LeavesOpen bodies v
  | block {v : Visit σ ρ} (hkind : v.node.kind = .block) (h : v.IsReplaced bodies) : LeavesOpen bodies v
  | through {v v' : Visit σ ρ} (hkind : v.node.kind ≠ .block) (h : Makes bodies v v')
      (hopen : LeavesOpen bodies v') : LeavesOpen bodies v

/-- The scopes of the second state are those of the first one, and the innermost may have new definitions,
    which come first. -/
def Walk.Extends (w w' : Walk σ ρ) : Prop :=
  ∃ inner outer new, w.scopes = inner :: outer ∧ w'.scopes = (new ++ inner) :: outer ∧
    ∀ r ∈ new, w.defined ≤ r.1.index ∧ r.1.index < w'.defined

theorem Walk.Extends.of_eq (hw : w.scopes ≠ []) (h : w'.scopes = w.scopes) : w.Extends w' := by
  cases hscopes : w.scopes with
  | nil => exact absurd hscopes hw
  | cons inner outer => exact ⟨inner, outer, [], hscopes, by rw [h, hscopes, nil_append], by simp⟩

theorem Walk.Extends.trans {w₁ w₂ w₃ : Walk σ ρ} (h₁ : w₁.Extends w₂) (h₂ : w₂.Extends w₃)
    (hle₁ : w₁.defined ≤ w₂.defined) (hle₂ : w₂.defined ≤ w₃.defined) : w₁.Extends w₃ := by
  obtain ⟨inner, outer, new, hw₁, hw₂, hnew⟩ := h₁
  obtain ⟨_, _, newer, hw, hw₃, hnewer⟩ := h₂
  rw [hw₂, List.cons.injEq] at hw
  obtain ⟨rfl, rfl⟩ := hw
  refine ⟨inner, outer, newer ++ new, hw₁, by rw [hw₃, append_assoc], fun r hr => ?_⟩
  rcases mem_append.mp hr with hr | hr
  · have := hnewer r hr
    omega
  · have := hnew r hr
    omega

theorem Walk.Extends.of_addRule {r : Rule × ρ} (hw : w.scopes ≠ []) (hindex : r.1.index = w.defined)
    (hdefined : w'.defined = w.defined + 1) (hscopes : w'.scopes = addRule r w.scopes) : w.Extends w' := by
  cases hinner : w.scopes with
  | nil => exact absurd hinner hw
  | cons inner outer =>
    refine ⟨inner, outer, [r], hinner, by rw [hscopes, hinner]; rfl, fun s hs => ?_⟩
    rw [mem_singleton.mp hs]
    omega

theorem Walk.Extends.length_eq (h : w.Extends w') : w'.scopes.length = w.scopes.length := by
  obtain ⟨inner, outer, new, hw, hw', -⟩ := h
  rw [hw, hw', length_cons, length_cons]

/-- A block that is not replaced goes back to the scopes around it. -/
theorem Visit.Returns.scopes_eq (h : v.Returns bodies w') (hkind : v.node.kind = .block)
    (hkept : ¬v.IsReplaced bodies) : w'.scopes = v.start.scopes := by
  obtain ⟨depth, ns, w, last, hdepth, hplan⟩ := h.exists_plan
  obtain ⟨t, -, hlast⟩ := hplan.perform_eq_ok hdepth h
  cases hplan with
  | module hmodule => exact absurd (hkind.symm.trans hmodule) (by decide)
  | result _ hfinds => exact absurd ⟨_, _, hfinds⟩ hkept
  | parts _ hfinds =>
    rw [leave, if_pos hkind] at hlast
    cases hlast
    rfl

/-- The visits of a list of nodes keep the scopes, if each of them does. -/
theorem extends_forM {depth : Nat} (ns : List Node) (hw : w.scopes ≠ [])
    (hns : ∀ before n after w₁ w₂, ns = before ++ n :: after →
      (before.forM (visit bodies depth)).perform w = (.ok (), w₁) → w₁.scopes ≠ [] →
      (visit bodies depth n).perform w₁ = (.ok (), w₂) → w₁.Extends w₂)
    (h : (ns.forM (visit bodies depth)).perform w = (.ok (), w')) : w.Extends w' := by
  induction ns generalizing w with
  | nil =>
    cases h
    exact .of_eq hw rfl
  | cons n ns ih =>
    obtain ⟨t, hn, hrest⟩ := forM_cons_eq_ok.mp h
    obtain ⟨ht, hle⟩ := isKept_nonempty.returns (v := ⟨depth, n, w⟩) hw hn
    have hfirst : w.Extends t := hns [] n ns w t rfl rfl hw hn
    have htail : t.Extends w' := by
      refine ih ht (fun before m after w₁ w₂ hsplit hbefore => ?_) hrest
      exact hns (n :: before) m after w₁ w₂ (by rw [hsplit, cons_append])
        (forM_cons_eq_ok.mpr ⟨t, hn, hbefore⟩)
    exact hfirst.trans htail hle (isKept_true.forM ns ⟨⟩ hrest).2

/-- A visit that leaves nothing open keeps the scopes. -/
theorem Visit.Returns.extends (h : v.Returns bodies w') (hopen : ¬LeavesOpen bodies v)
    (hv : v.start.scopes ≠ []) : v.start.Extends w' := by
  obtain ⟨depth, n, s⟩ := v
  induction depth generalizing n s w' with
  | zero =>
    rw [Visit.Returns, visit] at h
    cases h
  | succ depth ih =>
    by_cases hblock : n.kind = .block
    · exact .of_eq hv (h.scopes_eq hblock fun hreplaced => hopen (.block hblock hreplaced))
    · obtain ⟨_, ns, w, last, hdepth, hplan⟩ := h.exists_plan
      obtain rfl := Nat.succ.inj hdepth
      obtain ⟨t, ht, hlast⟩ := hplan.perform_eq_ok rfl h
      have hw : w.scopes ≠ [] := isKept_nonempty.plan hplan hv
      obtain ⟨hdefined, ⟨hmodule, -⟩ | ⟨-, hscopes⟩⟩ := hplan.start_cases
      · exact absurd (.module hmodule) hopen
      have hstart : s.Extends w := .of_eq hv (hscopes.trans (Walk.scopes_enter_of_ne hblock))
      have hnodes : w.Extends t := by
        refine extends_forM ns hw (fun before m after w₁ w₂ hsplit hbefore hw₁ hm => ?_) ht
        exact ih m w₁ hm (fun hm => hopen (.through hblock (.intro rfl (hsplit ▸ hplan) hbefore) hm)) hw₁
      obtain ⟨ht', hle⟩ := isKept_nonempty.forM ns hw ht
      have hend : t.Extends w' := by
        obtain rfl | ⟨hkind, -⟩ | ⟨r, hindex, hdefined, hscopes⟩ := hplan.end_cases hlast
        · exact .of_eq ht' rfl
        · exact absurd hkind hblock
        · exact .of_addRule ht' hindex hdefined hscopes
      have hle' : t.defined ≤ w'.defined := (isKept_true.finish hplan ⟨⟩ ⟨⟩ (hdefined ▸ hle) hlast).2
      exact (hstart.trans hnodes hdefined.ge hle).trans hend (hdefined ▸ hle) hle'

/-! ### The number of scopes -/

def ModuleFree (bodies : Bodies σ ρ) (v : Visit σ ρ) : Prop :=
  ∀ v', ReflTransGen (Makes bodies) v v' → v'.node.kind ≠ .module

theorem ModuleFree.makes (h : ModuleFree bodies v) (hmakes : Makes bodies v v') : ModuleFree bodies v' :=
  fun _ hstar => h _ (.head hmakes hstar)

/-- Outside modules, a visit begins with the scopes it starts from, and one more for a block. -/
theorem Plan.length_le (h : Plan bodies v ns w last) (hmodule : v.node.kind ≠ .module) :
    v.start.scopes.length ≤ w.scopes.length ∧
      (v.node.kind = .block → v.start.scopes.length < w.scopes.length) := by
  obtain ⟨-, ⟨hkind, -⟩ | ⟨-, hscopes⟩⟩ := h.start_cases
  · exact absurd hkind hmodule
  · rw [hscopes]
    by_cases hblock : v.node.kind = .block
    · rw [Walk.scopes_enter_of_block hblock, length_cons]
      exact ⟨Nat.le_succ _, fun _ => Nat.lt_succ_self _⟩
    · rw [Walk.scopes_enter_of_ne hblock]
      exact ⟨Nat.le_refl _, fun h => absurd h hblock⟩

/-- The end of a visit takes away no scope, or goes back to those it started from. -/
theorem Plan.length_finish (h : Plan bodies v ns w last) {t : Walk σ ρ}
    (hlast : last.perform t = (.ok (), w')) :
    t.scopes.length ≤ w'.scopes.length ∨ v.node.kind = .block ∧ w'.scopes = v.start.scopes := by
  obtain rfl | ⟨hkind, rfl⟩ | ⟨r, -, -, hscopes⟩ := h.end_cases hlast
  · exact .inl (Nat.le_refl _)
  · exact .inr ⟨hkind, rfl⟩
  · rw [hscopes]
    cases t.scopes <;> simp [addRule]

theorem length_le_forM {depth : Nat} (ns : List Node)
    (hns : ∀ before n after w₁ w₂, ns = before ++ n :: after →
      (before.forM (visit bodies depth)).perform w = (.ok (), w₁) →
      (visit bodies depth n).perform w₁ = (.ok (), w₂) → w₁.scopes.length ≤ w₂.scopes.length)
    (h : (ns.forM (visit bodies depth)).perform w = (.ok (), w')) :
    w.scopes.length ≤ w'.scopes.length := by
  induction ns generalizing w with
  | nil =>
    cases h
    exact Nat.le_refl _
  | cons n ns ih =>
    obtain ⟨t, hn, hrest⟩ := forM_cons_eq_ok.mp h
    refine (hns [] n ns w t rfl rfl hn).trans (ih (fun before m after w₁ w₂ hsplit hbefore => ?_) hrest)
    exact hns (n :: before) m after w₁ w₂ (by rw [hsplit, cons_append])
      (forM_cons_eq_ok.mpr ⟨t, hn, hbefore⟩)

/-- Outside modules, a visit never closes a scope that it did not open. -/
theorem Visit.Returns.length_le (h : v.Returns bodies w') (hfree : ModuleFree bodies v) :
    v.start.scopes.length ≤ w'.scopes.length := by
  obtain ⟨depth, n, s⟩ := v
  induction depth generalizing n s w' with
  | zero =>
    rw [Visit.Returns, visit] at h
    cases h
  | succ depth ih =>
    obtain ⟨_, ns, w, last, hdepth, hplan⟩ := h.exists_plan
    obtain rfl := Nat.succ.inj hdepth
    obtain ⟨t, ht, hlast⟩ := hplan.perform_eq_ok rfl h
    have hnodes : w.scopes.length ≤ t.scopes.length :=
      length_le_forM ns (fun before m after w₁ w₂ hsplit hbefore hm =>
        ih m w₁ hm (hfree.makes (.intro rfl (hsplit ▸ hplan) hbefore))) ht
    rcases hplan.length_finish hlast with hle | ⟨-, heq⟩
    · exact ((hplan.length_le (hfree _ .refl)).1.trans hnodes).trans hle
    · exact Nat.le_of_eq (congrArg List.length heq).symm

/-- A walk that leaves a scope open ends in more scopes than it started in. -/
theorem LeavesOpen.length_lt (hopen : LeavesOpen bodies v) (hfree : ModuleFree bodies v)
    (h : v.Returns bodies w') : v.start.scopes.length < w'.scopes.length := by
  induction hopen generalizing w' with
  | module hkind => exact absurd hkind (hfree _ .refl)
  | @block v hkind hreplaced =>
    obtain ⟨result, w, hfinds⟩ := hreplaced
    have hplan : Plan bodies v [result] w (pure ()) := .result (hfree _ .refl) hfinds
    obtain ⟨depth, _, _, _, hdepth, -⟩ := h.exists_plan
    obtain ⟨t, ht, hlast⟩ := hplan.perform_eq_ok hdepth h
    cases hlast
    refine ((hplan.length_le (hfree _ .refl)).2 hkind).trans_le (length_le_forM [result] ?_ ht)
    intro before m after w₁ w₂ hsplit hbefore hm
    exact Visit.Returns.length_le (v := ⟨depth, m, w₁⟩) hm
      (hfree.makes (.intro hdepth (hsplit ▸ hplan) hbefore))
  | @through v v' hkind hmakes _ ih =>
    have hfree' := hfree.makes hmakes
    obtain ⟨before, after, w, last, t, t', hdepth, hplan, hbefore, hhere, hafter, hlast⟩ := hmakes.split h
    have hstart := (hplan.length_le (hfree _ .refl)).1
    -- scopes are lost neither before, nor in, nor after the visit that leaves one open
    have hprev : w.scopes.length ≤ v'.start.scopes.length := by
      refine length_le_forM before (fun pre m post w₁ w₂ hsplit hpre hm => ?_) hbefore
      rw [hsplit, append_assoc] at hplan
      exact Visit.Returns.length_le (v := ⟨_, m, w₁⟩) hm (hfree.makes (.intro hdepth hplan hpre))
    have hopen := ih hfree' hhere
    have hnext : t.scopes.length ≤ t'.scopes.length := by
      refine length_le_forM after (fun pre m post w₁ w₂ hsplit hpre hm => ?_) hafter
      have hplan' : Plan bodies v ((before ++ v'.node :: pre) ++ m :: post) w last := by
        rw [hsplit] at hplan
        simpa using hplan
      exact Visit.Returns.length_le (v := ⟨_, m, w₁⟩) hm (hfree.makes (.intro hdepth hplan'
        (forM_append_eq_ok.mpr ⟨_, hbefore, forM_cons_eq_ok.mpr ⟨t, hhere, hpre⟩⟩)))
    rcases hplan.length_finish hlast with hle | ⟨hblock, -⟩
    · omega
    · exact absurd hblock hkind

/-! ### What is tried behind a block -/

/-- What is past behind a visit is past behind the visit that makes it. -/
theorem Makes.past {first last : Nat} (h : Makes bodies v v') (hstart : Indexed v.start)
    (hle : v.start.defined ≤ first) (hinner : v'.Returns bodies w) (hpast : Past first last w)
    (houter : v.Returns bodies w') : Past first last w' := by
  obtain ⟨before, after, s, finish, t, t', hdepth, hplan, hbefore, hhere, hafter, hlast⟩ := h.split houter
  obtain rfl := hhere.unique hinner
  obtain ⟨ht', -⟩ := (isKept_past first last).forM after hpast hafter
  -- A block goes back to macros that are older than all that is past.
  have hrestore : Past first last { t' with scopes := v.start.scopes } :=
    ⟨fun r hr => .inl (Nat.lt_of_lt_of_le (hstart r hr) hle), ht'.2⟩
  obtain rfl | ⟨-, rfl⟩ | ⟨r, hindex, hdefined, hscopes⟩ := hplan.end_cases hlast
  · exact ht'
  · exact hrestore
  · exact (isKept_past first last).define hindex hdefined hscopes ht'

theorem past_of_makes_star {last : Nat} (h : ReflTransGen (Makes bodies) v v') (hstart : Indexed v.start)
    (hinner : v'.Returns bodies w) (hpast : Past v'.start.defined last w) (houter : v.Returns bodies w') :
    Past v'.start.defined last w' := by
  induction h using ReflTransGen.head_induction_on generalizing w' with
  | refl => exact houter.unique hinner ▸ hpast
  | @head v u hmakes hstar ih =>
    obtain ⟨hu, hle⟩ := isKept_indexed.makes hstart hmakes
    obtain ⟨_, _, _, _, t, _, -, -, -, ht, -⟩ := hmakes.split houter
    exact hmakes.past hstart (hle.trans (isKept_true.makes_star ⟨⟩ hstar).2) ht (ih hu ht) houter

/-- A macro that was defined in the course of a visit: its number tells. -/
def Visit.Defines (v : Visit σ ρ) (w : Walk σ ρ) (r : Rule × ρ) : Prop :=
  v.start.defined ≤ r.1.index ∧ r.1.index < w.defined

theorem not_defines_of_behind {walk : Visit σ ρ} (hwalk : Indexed walk.start)
    (hkind : v.node.kind = .block) (hkept : ¬v.IsReplaced bodies) (h : v.Returns bodies w)
    (hbehind : Behind bodies walk v v') : ∀ r ∈ v'.tried, ¬v.Defines w r := by
  obtain ⟨u, u', hinside, ⟨between, hdepth, hbetween⟩, hv, hv'⟩ := hbehind
  obtain ⟨hu, -⟩ := isKept_indexed.makes_star hwalk hinside.to_reflTransGen
  obtain ⟨hstart, -⟩ := isKept_indexed.makes_star hu hv
  obtain ⟨-, hle⟩ := isKept_true.returns ⟨⟩ h
  have hpast : Past v.start.defined w.defined w := by
    refine ⟨fun r hr => .inl (hstart r ?_), Nat.le_refl _⟩
    rwa [h.scopes_eq hkind hkept] at hr
  obtain ⟨t, hreturns, hrest⟩ := forM_cons_eq_ok.mp hbetween
  have ht : Past v.start.defined w.defined t := past_of_makes_star hv hu h hpast hreturns
  obtain ⟨hu', -⟩ := (isKept_past _ _).forM between ht hrest
  obtain ⟨hend, -⟩ := (isKept_past _ _).makes_star hu' hv'
  rintro r hr ⟨hfirst, hlast⟩
  rcases hend.1 r hr with hlt | hge
  · omega
  · omega

/-- The visits in a module start with a scope. -/
theorem Inside.scopes_ne_nil {walk : Visit σ ρ} (h : Inside bodies walk v)
    (hmodule : walk.node.kind = .module) : v.start.scopes ≠ [] := by
  obtain ⟨c, hmakes, hstar⟩ := TransGen.head'_iff.mp h
  have hc : c.start.scopes ≠ [] := by
    cases hmakes with
    | intro hdepth hplan hbefore =>
      obtain ⟨-, ⟨-, hscopes⟩ | ⟨hkind, -⟩⟩ := hplan.start_cases
      · exact (isKept_nonempty.forM _ (hscopes ▸ cons_ne_nil _ _) hbefore).1
      · exact absurd hmodule hkind
  exact (isKept_nonempty.makes_star hc hstar).1

/-- **Definitions are block scoped** as far as blocks are not replaced: in the walk of a module, when a
    visit returns, the scopes are those that it started with, with at most new definitions in the
    innermost, exactly if it leaves no scope open; and behind a block that is not replaced, no macro that
    was defined in it is tried. -/
theorem definitions_block_scoped (bodies : Bodies σ ρ) {depth next : Nat} {module : Node} {env : σ}
    (hmodule : module.kind = .module) {v : Visit σ ρ} {w : Walk σ ρ}
    (hinside : Inside bodies ⟨depth, module, { next, env }⟩ v) (h : v.Returns bodies w) :
    (¬LeavesOpen bodies v → v.start.Extends w) ∧
      (ModuleFree bodies v → LeavesOpen bodies v → ¬v.start.Extends w) ∧
      (v.node.kind = .block → ¬v.IsReplaced bodies → w.scopes = v.start.scopes ∧
        ∀ v', Behind bodies ⟨depth, module, { next, env }⟩ v v' → ∀ r ∈ v'.tried, ¬v.Defines w r) := by
  refine ⟨fun hopen => h.extends hopen (hinside.scopes_ne_nil hmodule), fun hfree hopen hextends => ?_,
    fun hkind hkept => ⟨h.scopes_eq hkind hkept, fun v' hbehind => ?_⟩⟩
  · exact absurd hextends.length_eq (hopen.length_lt hfree h).ne'
  · exact not_defines_of_behind (by simp [Indexed]) hkind hkept h hbehind

/-! ### Blocks that are kept and blocks that are replaced -/

/-- The definition of a macro without parameters. -/
def definitionOf (pattern : Node) : Node :=
  Node.ofCall (ident "defmacro") [pattern, ofBlock [ident "pass"]]

/-- Every macro gives the definition of another one. -/
def definingBodies : Bodies Unit Unit where
  define _ _ := pure ()
  run _ _ := pure (some (definitionOf (ident "y")))

/-- The walk of a module with the given statements. -/
def walkOf (statements : List Node) : Visit Unit Unit :=
  let (module, next) := (Node.ofModule statements).label 1
  ⟨walkDepth, module, { next, env := () }⟩

/-- The state when the first `i` statements of a module have been visited. -/
def Visit.after (walk : Visit Unit Unit) (i : Nat) : Except Failure Unit × Walk Unit Unit :=
  ((walk.node.args.take i).forM (visit definingBodies (walk.depth - 1))).perform
    { walk.start with scopes := [[]] }

def Visit.statement (walk : Visit Unit Unit) (i : Nat) : Visit Unit Unit :=
  ⟨walk.depth - 1, walk.node.args.getD i default, (walk.after i).2⟩

section Statements

variable {walk : Visit Unit Unit} {i : Nat}

theorem Visit.args_eq (hi : i < walk.node.args.length) :
    walk.node.args = walk.node.args.take i ++ (walk.statement i).node :: walk.node.args.drop (i + 1) := by
  rw [statement, getD_eq_getElem?_getD, getElem?_eq_getElem hi, Option.getD_some,
    ← drop_eq_getElem_cons hi, take_append_drop]

theorem Visit.eq_after_of_toBool (h : (walk.after i).1.toBool = true) :
    walk.after i = (.ok (), (walk.after i).2) := by
  rcases hafter : walk.after i with ⟨e | ⟨⟩, w⟩
  · rw [hafter] at h
    cases h
  · rfl

theorem Visit.inside_statement (hmodule : walk.node.kind = .module) (hdepth : walk.depth ≠ 0)
    (hi : i < walk.node.args.length) (hafter : (walk.after i).1.toBool = true) :
    Inside definingBodies walk (walk.statement i) := by
  have hplan : Plan definingBodies walk walk.node.args { walk.start with scopes := [[]] } (pure ()) :=
    .module hmodule
  rw [args_eq hi] at hplan
  exact .single (.intro (Nat.succ_pred hdepth).symm hplan (eq_after_of_toBool hafter))

theorem Visit.statement_returns (hi : i < walk.node.args.length)
    (hafter : (walk.after (i + 1)).1.toBool = true) :
    (walk.statement i).Returns definingBodies (walk.after (i + 1)).2 := by
  obtain ⟨w, hw⟩ : ∃ w, walk.after (i + 1) = (.ok (), w) := ⟨_, eq_after_of_toBool hafter⟩
  have htake : walk.node.args.take (i + 1) = walk.node.args.take i ++ [(walk.statement i).node] := by
    rw [statement, getD_eq_getElem?_getD, getElem?_eq_getElem hi, Option.getD_some,
      take_succ_eq_append_getElem hi]
  have hperform := hw
  rw [after, htake, forM_append_eq_ok] at hperform
  obtain ⟨t, ht, hlast⟩ := hperform
  obtain ⟨t', hn, hnil⟩ := forM_cons_eq_ok.mp hlast
  cases hnil
  rw [hw, Returns, show (walk.statement i).start = t from congrArg Prod.snd ht]
  exact hn

theorem Visit.behind_statement (hinside : Inside definingBodies walk (walk.statement i))
    (hreturns : (walk.statement i).Returns definingBodies (walk.after (i + 1)).2) :
    Behind definingBodies walk (walk.statement i) (walk.statement (i + 1)) :=
  ⟨_, walk.statement (i + 1), hinside, ⟨[], rfl, forM_cons_eq_ok.mpr ⟨_, hreturns, rfl⟩⟩, .refl, .refl⟩

end Statements

/-- A block with a definition in it, and a statement that the macro would fit. -/
def keptWalk : Visit Unit Unit :=
  walkOf [ofBlock [definitionOf (ident "y")], ident "y"]

/-- The scopes behind the block are those before it, and the macro is not tried on the statement. -/
theorem definitions_block_scoped_keptWalk :
    (keptWalk.statement 0).start.Extends (keptWalk.after 1).2 ∧
      (keptWalk.after 1).2.scopes = (keptWalk.statement 0).start.scopes ∧
      ∀ r ∈ (keptWalk.statement 1).tried, ¬(keptWalk.statement 0).Defines (keptWalk.after 1).2 r := by
  have hinside : Inside definingBodies keptWalk (keptWalk.statement 0) :=
    Visit.inside_statement rfl (by decide) (by decide) (by decide)
  have hreturns : (keptWalk.statement 0).Returns definingBodies (keptWalk.after 1).2 :=
    Visit.statement_returns (by decide) (by decide +kernel)
  have hkept : ¬(keptWalk.statement 0).IsReplaced definingBodies := by
    rintro ⟨result, w, hfinds⟩
    cases hfinds
  obtain ⟨hextends, -, hblock⟩ := definitions_block_scoped definingBodies rfl hinside hreturns
  obtain ⟨hscopes, hbehind⟩ := hblock rfl hkept
  refine ⟨hextends fun hopen => ?_, hscopes, hbehind _ (Visit.behind_statement hinside hreturns)⟩
  cases hopen with
  | module hkind => cases hkind
  | block _ hreplaced => exact hkept hreplaced
  | through hkind => exact hkind rfl

/-- The macro replaces the block by a definition. -/
def openWalk : Visit Unit Unit :=
  walkOf [definitionOf (ofBlock [ident "x"]), ofBlock [ident "x"], ident "y"]

/-- **A block that is replaced leaves its scope open**: the macro that is defined in its place is tried on
    the statement behind it. -/
theorem scope_left_open :
    Inside definingBodies openWalk (openWalk.statement 1) ∧ (openWalk.statement 1).node.kind = .block ∧
      (openWalk.statement 1).Returns definingBodies (openWalk.after 2).2 ∧
      ¬(openWalk.statement 1).start.Extends (openWalk.after 2).2 ∧
      Behind definingBodies openWalk (openWalk.statement 1) (openWalk.statement 2) ∧
      ∃ r ∈ (openWalk.statement 2).tried, (openWalk.statement 1).Defines (openWalk.after 2).2 r := by
  have hinside : Inside definingBodies openWalk (openWalk.statement 1) :=
    Visit.inside_statement rfl (by decide) (by decide) (by decide +kernel)
  have hreturns : (openWalk.statement 1).Returns definingBodies (openWalk.after 2).2 :=
    Visit.statement_returns (by decide) (by decide +kernel)
  have htried : ∃ r ∈ (openWalk.statement 2).tried, r.1.index = 1 := by decide +kernel
  obtain ⟨r, hr, hindex⟩ := htried
  refine ⟨hinside, rfl, hreturns, fun hextends => ?_, Visit.behind_statement hinside hreturns, r, hr, ?_, ?_⟩
  · exact absurd hextends.length_eq (by decide +kernel)
  · rw [hindex]
    decide +kernel
  · rw [hindex]
    decide +kernel

end Cppward.Macro
