import Cppward.Macro.Quote
import Cppward.Proofs.Node.Outline

namespace Cppward

open List Node

/-- What a node applies, and its arguments. -/
def Node.children (n : Node) : List Node := n.func.toList ++ n.args

theorem Node.child_mem_parts {n m : Node} (h : m ∈ n.children) : m ∈ n.parts :=
  mem_append_left _ h

theorem Node.children_induction {motive : Node → Prop}
    (step : ∀ n : Node, (∀ m ∈ n.children, motive m) → motive n) (n : Node) : motive n :=
  partsInduction (fun n ih => step n fun m hm => ih m (child_mem_parts hm)) n

theorem Node.map_children_congr {n : Node} {f g : Node → α}
    (h : ∀ m ∈ n.children, f m = g m) : n.func.map f = n.func.map g ∧ n.args.map f = n.args.map g :=
  ⟨Option.map_congr fun _ hm => h _ (mem_append_left _ (Option.mem_toList.mpr hm)),
    map_congr_left fun _ hm => h _ (mem_append_right _ hm)⟩

theorem map_eq_of_forall₂ {f : α → γ} {g : β → γ} {as : List α} {bs : List β}
    (h : List.Forall₂ (fun a b => f a = g b) as bs) : as.map f = bs.map g := by
  rw [← forall₂_eq_eq_eq, forall₂_map_left_iff, forall₂_map_right_iff]
  exact h

theorem map_option_eq_of_forall₂ {f : α → γ} {g : β → γ} {o : Option α}
    {p : Option β} (h : List.Forall₂ (fun a b => f a = g b) o.toList p.toList) :
    o.map f = p.map g := by
  have := map_eq_of_forall₂ h
  cases o <;> cases p <;> simp_all

theorem Node.nameTexts_self {n : Node} (h : s ∈ n.kind.nameTexts) : s ∈ n.nameTexts :=
  mem_flatMap.mpr ⟨n, n.self_mem_walk, h⟩

theorem Node.nameTexts_of_mem_walk {n m : Node} (hm : m ∈ n.walk)
    (h : s ∈ m.nameTexts) : s ∈ n.nameTexts := by
  obtain ⟨c, hc, hs⟩ := mem_flatMap.mp h
  exact mem_flatMap.mpr ⟨c, mem_walk_trans hm hc, hs⟩

theorem Node.child_mem_walk {n m : Node} (hm : m ∈ n.children) : m ∈ n.walk :=
  mem_walk_of_mem_parts (child_mem_parts hm) m.self_mem_walk

theorem Node.nameTexts_of_child {n m : Node} (hm : m ∈ n.children)
    (h : s ∈ m.nameTexts) : s ∈ n.nameTexts := nameTexts_of_mem_walk (child_mem_walk hm) h

namespace Macro

/-!
# What quotations mean

The body of a macro is code.  In it, `quote(e)` stands for the tree `e`, and `unquote(e)` in such a
tree for the value of the code `e`, which may have quotations in turn.  This is said for every way
to evaluate code that goes by the parts of a node.

* `Evaluator`, `Evaluator.value` — such a way, and the value of code without quotations.
* `meaning_eq_tree` — where constructor calls build trees, a quotation means its tree with the values
  of the unquoted parts filled in.
* `Evaluator.expanded` — the value if quotations are only looked for below a node.  It is the meaning
  if no quotation or unquoted part stands where it is overlooked (`read_eq_meaning`).
-/

variable {α β γ : Type} {s : String} {kind : Kind}

/-! ### Evaluators -/

/-- A way to evaluate code: the value of a node comes from its kind and the values of its parts. -/
structure Evaluator (V : Type) where
  node : Kind → Option V → List V → V

namespace Evaluator

variable {V : Type} (E : Evaluator V)

mutual
def value : Node → V
  | ⟨_, kind, func, args, _⟩ => E.node kind (valueOption func) (valueList args)

def valueOption : Option Node → Option V
  | none => none
  | some n => some (value n)

def valueList : List Node → List V
  | [] => []
  | n :: ns => value n :: valueList ns
end

theorem valueOption_eq (o : Option Node) : E.valueOption o = o.map E.value := by
  cases o <;> rfl

theorem valueList_eq (ns : List Node) : E.valueList ns = ns.map E.value :=
  eq_map rfl (fun _ _ => rfl) ns

theorem value_eq (n : Node) : E.value n = E.node n.kind (n.func.map E.value) (n.args.map E.value) := by
  obtain ⟨info, kind, func, args, type⟩ := n
  rw [value, valueOption_eq, valueList_eq]

/-! ### Constructor calls -/

def name (s : String) : V := E.node (.name s) none []

def text (s : String) : V := E.node (.str s none none) none []

def call (f : String) (args : List V) : V := E.node (.call false) (some (E.name f)) args

def list (items : List V) : V :=
  E.node (.binary .typed ":") none [E.node .list none items, E.name "Node"]

/-- The value of the constructor call for an affix. -/
def affix : Option Affix → V
  | none => E.name "None"
  | some a => E.call "Identifier" [E.text a.name]

/-- The values of the arguments of a constructor call. -/
def constructorArgs (func : Option V) (args : List V) : Kind → List V
  | .name t => [E.text t]
  | .int digits tail | .float digits tail => [E.text digits, E.affix tail]
  | .str t lead tail => [E.text t, E.affix lead, E.affix tail]
  | .unary op | .trailing op | .binary _ op => [E.text op, E.list args]
  | _ => func.toList ++ [E.list args]

/-- The value of the constructor call for a node, from those of the calls for its parts. -/
def build (kind : Kind) (func : Option V) (args : List V) : V :=
  E.call kind.className (E.constructorArgs func args kind)

/-- Constructor calls build trees: `tree` gives the values that are trees, which may depend on a state
    of the macro body. -/
def Builds {X : Type} (tree : (X → Node) → V) : Prop :=
  ∀ (kind : Kind) (func : Option (X → Node)) (args : List (X → Node)) (loc : Nat),
    kind.Fits func.isSome args.length →
      E.build kind (func.map tree) (args.map tree) =
        tree fun x => Node.make kind (func.map (· x)) (args.map (· x)) loc

end Evaluator

/-! ### Modes -/

/-- How a part of a macro body is taken: it is code to be run, or a tree to be built. -/
inductive Mode where
  | code
  | tree
  deriving DecidableEq

namespace Mode

/-- What is called to change the mode. -/
def word : Mode → String
  | .code => "quote"
  | .tree => "unquote"

def other : Mode → Mode
  | .code => .tree
  | .tree => .code

end Mode

namespace Evaluator

variable {V : Type} (E : Evaluator V)

/-- The value of a node that is taken in a mode, from those of its parts. -/
def make : Mode → Kind → Option V → List V → V
  | .code => E.node
  | .tree => E.build

mutual
/-- The value of a tree that is taken in a mode.  A change of the mode is noticed below the root, and
    at the root if `root` says so; `deep` says the same for the trees behind a change. -/
def read (deep root : Bool) (mode : Mode) : Node → V
  | ⟨info, kind, func, args, type⟩ =>
    match root && Node.isCallOf ⟨info, kind, func, args, type⟩ mode.word, args with
    | true, [content] => read deep deep mode.other content
    | _, args => E.make mode kind (readOption deep mode func) (readList deep mode args)

def readOption (deep : Bool) (mode : Mode) : Option Node → Option V
  | none => none
  | some n => some (read deep true mode n)

def readList (deep : Bool) (mode : Mode) : List Node → List V
  | [] => []
  | n :: ns => read deep true mode n :: readList deep mode ns
end

/-- The value of code in which quotations stand for trees, and of a quoted tree. -/
def meaning (mode : Mode) (n : Node) : V := E.read true true mode n

/-- The value if quotations are looked for below code and unquoted parts below a quoted tree, but
    neither at the root. -/
def expanded (mode : Mode) (n : Node) : V := E.read false false mode n

variable {deep root : Bool} {mode : Mode} {n content : Node}

theorem readOption_eq (o : Option Node) :
    E.readOption deep mode o = o.map (E.read deep true mode) := by
  cases o <;> rfl

theorem readList_eq (ns : List Node) : E.readList deep mode ns = ns.map (E.read deep true mode) :=
  eq_map rfl (fun _ _ => rfl) ns

/-- Behind a change of the mode, the other mode is on. -/
theorem read_of_call (hroot : root = true) (h : n.isCallOf mode.word = true)
    (hargs : n.args = [content]) :
    E.read deep root mode n = E.read deep deep mode.other content := by
  obtain ⟨info, kind, func, args, type⟩ := n
  subst hroot hargs
  rw [read]
  simp only [h, Bool.and_self]

theorem read_of_not (h : (root && n.isCallOf mode.word) = false) :
    E.read deep root mode n =
      E.make mode n.kind (n.func.map (E.read deep true mode))
        (n.args.map (E.read deep true mode)) := by
  obtain ⟨info, kind, func, args, type⟩ := n
  rw [read]
  · rw [readOption_eq, readList_eq]
  · intro content hcall
    rw [h] at hcall
    cases hcall

theorem meaning_of_call (h : n.isCallOf mode.word = true) (hargs : n.args = [content]) :
    E.meaning mode n = E.meaning mode.other content := E.read_of_call rfl h hargs

theorem meaning_of_not (h : n.isCallOf mode.word = false) :
    E.meaning mode n =
      E.make mode n.kind (n.func.map (E.meaning mode)) (n.args.map (E.meaning mode)) :=
  E.read_of_not (by rw [h, Bool.and_false])

end Evaluator

/-! ### Where quotations are noticed -/

mutual
/-- The nodes of a tree with the modes that they are taken in. -/
def positions (mode : Mode) : Node → List (Mode × Node)
  | ⟨info, kind, func, args, type⟩ =>
    (mode, ⟨info, kind, func, args, type⟩) ::
      if Node.isCallOf ⟨info, kind, func, args, type⟩ mode.word then positionsList mode.other args
      else positionsOption mode func ++ positionsList mode args

def positionsOption (mode : Mode) : Option Node → List (Mode × Node)
  | none => []
  | some n => positions mode n

def positionsList (mode : Mode) : List Node → List (Mode × Node)
  | [] => []
  | n :: ns => positions mode n ++ positionsList mode ns
end

/-- No change of the mode comes right behind another one. -/
def Noticed (mode : Mode) (n : Node) : Prop :=
  ∀ p ∈ positions mode n, p.2.isCallOf p.1.word = true →
    ∀ content ∈ p.2.args, content.isCallOf p.1.other.word = false

instance (mode : Mode) (n : Node) : Decidable (Noticed mode n) :=
  inferInstanceAs (Decidable (∀ p ∈ positions mode n, _ → _))

/-- What changes the mode has a single argument. -/
def Apt (n : Node) : Prop :=
  ∀ c ∈ n.walk, c.isCallOf "quote" = true ∨ c.isCallOf "unquote" = true → c.args.length = 1

instance (n : Node) : Decidable (Apt n) := inferInstanceAs (Decidable (∀ c ∈ n.walk, _ → _))

section

variable {mode : Mode} {n m : Node}

theorem positions_eq (mode : Mode) (n : Node) : positions mode n = (mode, n) ::
    if n.isCallOf mode.word then n.args.flatMap (positions mode.other)
    else n.children.flatMap (positions mode) := by
  have hlist : ∀ mode ns, positionsList mode ns = ns.flatMap (positions mode) := by
    intro mode
    exact eq_flatMap rfl fun _ _ => rfl
  have hoption : ∀ o, positionsOption mode o = o.toList.flatMap (positions mode) := by
    intro o
    cases o <;> simp [positionsOption]
  obtain ⟨info, kind, func, args, type⟩ := n
  rw [positions, hlist, hlist, hoption, children, flatMap_append]

/-- The nodes that are taken in a mode are nodes of the tree. -/
theorem mem_walk_of_mem_positions {p : Mode × Node} (h : p ∈ positions mode n) : p.2 ∈ n.walk := by
  induction n using children_induction generalizing mode with
  | step n ih =>
    rw [positions_eq] at h
    rcases mem_cons.mp h with rfl | h
    · exact n.self_mem_walk
    · have hchild : ∃ m ∈ n.children, ∃ mode, p ∈ positions mode m := by
        split at h
        · obtain ⟨m, hm, h⟩ := mem_flatMap.mp h
          exact ⟨m, mem_append_right _ hm, _, h⟩
        · obtain ⟨m, hm, h⟩ := mem_flatMap.mp h
          exact ⟨m, hm, _, h⟩
      obtain ⟨m, hm, mode, h⟩ := hchild
      exact mem_walk_of_mem_parts (child_mem_parts hm) (ih m hm h)

theorem Noticed.self (h : Noticed mode n) (hcall : n.isCallOf mode.word = true) :
    ∀ content ∈ n.args, content.isCallOf mode.other.word = false := by
  refine h (mode, n) ?_ hcall
  rw [positions_eq]
  exact mem_cons_self

theorem Noticed.content (h : Noticed mode n) (hcall : n.isCallOf mode.word = true)
    (hm : m ∈ n.args) : Noticed mode.other m := by
  intro p hp
  refine h p ?_
  rw [positions_eq, if_pos hcall]
  exact mem_cons_of_mem _ (mem_flatMap.mpr ⟨m, hm, hp⟩)

theorem Noticed.part (h : Noticed mode n) (hcall : n.isCallOf mode.word = false)
    (hm : m ∈ n.children) : Noticed mode m := by
  intro p hp
  refine h p ?_
  rw [positions_eq, hcall, if_neg Bool.false_ne_true]
  exact mem_cons_of_mem _ (mem_flatMap.mpr ⟨m, hm, hp⟩)

theorem Apt.of_mem (h : Apt n) (hm : m ∈ n.children) : Apt m := by
  intro c hc
  exact h c (mem_walk_of_mem_parts (child_mem_parts hm) hc)

theorem Apt.self (h : Apt n) (mode : Mode) (hcall : n.isCallOf mode.word = true) :
    ∃ content, n.args = [content] := by
  refine length_eq_one_iff.mp (h n n.self_mem_walk ?_)
  cases mode with
  | code => exact .inl hcall
  | tree => exact .inr hcall

end

namespace Evaluator

variable {V : Type} (E : Evaluator V) {mode : Mode} {n : Node}

/-- **Nothing is overlooked**, if no change of the mode comes right behind another one or stands at
    the root. -/
theorem read_eq_meaning {root : Bool} (h : Noticed mode n) (hn : Apt n)
    (hroot : root = true ∨ n.isCallOf mode.word = false) :
    E.read false root mode n = E.meaning mode n := by
  induction n using children_induction generalizing mode root with
  | step n ih =>
    cases hcall : n.isCallOf mode.word with
    | true =>
      obtain rfl : root = true := hroot.resolve_right (by simp [hcall])
      obtain ⟨content, hargs⟩ := hn.self mode hcall
      have hmem : content ∈ n.args := by simp [hargs]
      have hchild : content ∈ n.children := mem_append_right _ hmem
      rw [E.meaning_of_call hcall hargs, E.read_of_call rfl hcall hargs]
      exact ih content hchild (h.content hcall hmem) (hn.of_mem hchild)
        (.inr (h.self hcall content hmem))
    | false =>
      have hparts := map_children_congr fun m hm =>
        ih m hm (h.part hcall hm) (hn.of_mem hm) (.inl rfl)
      rw [E.meaning_of_not hcall, E.read_of_not (by rw [hcall, Bool.and_false]), hparts.1, hparts.2]

end Evaluator

/-! ### Filling in values -/

mutual
/-- The tree with a node in place of each unquoted part. -/
def fill (v : Node → Node) : Node → Node
  | ⟨info, kind, func, args, type⟩ =>
    match Node.isCallOf ⟨info, kind, func, args, type⟩ "unquote", args with
    | true, [content] => v content
    | _, args => Node.make kind (fillOption v func) (fillList v args) info.loc

def fillOption (v : Node → Node) : Option Node → Option Node
  | none => none
  | some n => some (fill v n)

def fillList (v : Node → Node) : List Node → List Node
  | [] => []
  | n :: ns => fill v n :: fillList v ns
end

mutual
/-- The unquoted parts of a tree, without those that stand inside another one. -/
def unquoted : Node → List Node
  | ⟨info, kind, func, args, type⟩ =>
    if Node.isCallOf ⟨info, kind, func, args, type⟩ "unquote" then args
    else unquotedOption func ++ unquotedList args

def unquotedOption : Option Node → List Node
  | none => []
  | some n => unquoted n

def unquotedList : List Node → List Node
  | [] => []
  | n :: ns => unquoted n ++ unquotedList ns
end

section

variable {v : Node → Node} {n content : Node}

theorem fill_of_call (h : n.isCallOf "unquote" = true) (hargs : n.args = [content]) :
    fill v n = v content := by
  obtain ⟨info, kind, func, args, type⟩ := n
  subst hargs
  rw [fill]
  simp only [h]

theorem fill_of_not (h : n.isCallOf "unquote" = false) :
    fill v n = make n.kind (n.func.map (fill v)) (n.args.map (fill v)) n.info.loc := by
  have hlist : ∀ ns, fillList v ns = ns.map (fill v) :=
    eq_map rfl fun _ _ => rfl
  have hoption : ∀ o, fillOption v o = o.map (fill v) := by
    intro o
    cases o <;> rfl
  obtain ⟨info, kind, func, args, type⟩ := n
  rw [fill]
  · rw [hlist, hoption]
  · intro content hcall
    rw [h] at hcall
    cases hcall

theorem unquoted_eq (n : Node) : unquoted n =
    if n.isCallOf "unquote" then n.args else n.children.flatMap unquoted := by
  have hlist : ∀ ns, unquotedList ns = ns.flatMap unquoted :=
    eq_flatMap rfl fun _ _ => rfl
  have hoption : ∀ o, unquotedOption o = o.toList.flatMap unquoted := by
    intro o
    cases o <;> simp [unquotedOption]
  obtain ⟨info, kind, func, args, type⟩ := n
  rw [unquoted, hlist, hoption, children, flatMap_append]

end

namespace Evaluator

variable {V : Type} (E : Evaluator V) {mode : Mode} {n : Node}

/-- **A quotation means its tree**, with the values of the unquoted parts filled in, if these are
    trees and constructor calls build trees. -/
theorem meaning_eq_tree {X : Type} {tree : (X → Node) → V} {v : Node → X → Node}
    (hbuilds : E.Builds tree) (hn : ∀ c ∈ n.walk, c.kind.Fits c.func.isSome c.args.length)
    (hapt : Apt n) (hv : ∀ e ∈ unquoted n, E.meaning .code e = tree (v e)) :
    E.meaning .tree n = tree fun x => fill (v · x) n := by
  induction n using children_induction with
  | step n ih =>
    rw [unquoted_eq] at hv
    cases hcall : n.isCallOf "unquote" with
    | true =>
      obtain ⟨content, hargs⟩ := hapt.self .tree hcall
      have hvalue := hv content (by simp [hcall, hargs])
      simp only [fill_of_call hcall hargs]
      exact (E.meaning_of_call hcall hargs).trans hvalue
    | false =>
      have hparts := map_children_congr (f := E.meaning .tree)
        (g := tree ∘ fun m x => fill (v · x) m) fun m hm => by
          refine ih m hm (fun c hc => ?_) (hapt.of_mem hm) fun e he => hv e ?_
          · exact hn c (mem_walk_of_mem_parts (child_mem_parts hm) hc)
          · rw [hcall, if_neg Bool.false_ne_true]
            exact mem_flatMap.mpr ⟨m, hm, he⟩
      have hfits := hn n n.self_mem_walk
      have hbuild := hbuilds n.kind (n.func.map fun m x => fill (v · x) m)
        (n.args.map fun m x => fill (v · x) m) n.info.loc
        (by rwa [Option.isSome_map, length_map])
      calc E.meaning .tree n
          = E.build n.kind (n.func.map (E.meaning .tree)) (n.args.map (E.meaning .tree)) :=
            E.meaning_of_not hcall
        _ = _ := by rw [hparts.1, hparts.2, ← Option.map_map, ← map_map, hbuild]
        _ = _ := by simp only [fill_of_not hcall, Option.map_map, map_map, Function.comp_def]

/-! ### Names with values -/

/-- Evaluation where some names have values. -/
def within (ρ : String → Option V) : Evaluator V where
  node kind func args :=
    match kind with
    | .name s => (ρ s).getD (E.node kind func args)
    | _ => E.node kind func args

theorem value_within_of_name {ρ : String → Option V} {x : V} (h : n.isNamed s = true)
    (hs : ρ s = some x) : (E.within ρ).value n = x := by
  rw [isNamed, beq_iff_eq, Node.name?] at h
  rw [value_eq]
  cases hkind : n.kind with
  | name t =>
    rw [hkind] at h
    obtain rfl := Option.some.inj h
    simp only [within, hs, Option.getD_some]
  | _ =>
    rw [hkind] at h
    cases h

theorem node_within {ρ : String → Option V} (h : ∀ s, kind = .name s → ρ s = none)
    (func : Option V) (args : List V) : (E.within ρ).node kind func args = E.node kind func args := by
  cases kind with
  | name s => simp only [within, h s rfl, Option.getD_none]
  | _ => rfl

/-- The names that constructor calls use have no values. -/
def Spares (ρ : String → Option V) : Prop := ∀ s, isClassName s = true → ρ s = none

/-- Then constructor calls have the values that they have elsewhere. -/
theorem build_within {ρ : String → Option V} (hρ : Spares ρ) (kind : Kind) (func : Option V)
    (args : List V) : (E.within ρ).build kind func args = E.build kind func args := by
  have hname : ∀ s, isClassName s = true → (E.within ρ).name s = E.name s := by
    intro s hs
    refine E.node_within ?_ none []
    rintro _ ⟨⟩
    exact hρ s hs
  have hcall : ∀ f vs, isClassName f = true → (E.within ρ).call f vs = E.call f vs := by
    intro f vs hf
    rw [call, hname f hf]
    rfl
  have haffix : ∀ a, (E.within ρ).affix a = E.affix a := by
    intro a
    cases a with
    | none => exact hname "None" (by decide)
    | some a => exact hcall "Identifier" _ (by decide)
  have hlist : (E.within ρ).list args = E.list args := by
    rw [list, hname "Node" (by decide)]
    rfl
  have hargs : (E.within ρ).constructorArgs func args kind = E.constructorArgs func args kind := by
    cases kind <;> simp only [constructorArgs, haffix, hlist] <;> rfl
  rw [build, hargs, hcall _ _ (isClassName_className kind)]
  rfl

variable {ρ : String → Option V}

theorem make_within (hρ : Spares ρ) (h : ∀ s, kind = .name s → ρ s = none)
    (func : Option V) (args : List V) :
    (E.within ρ).make mode kind func args = E.make mode kind func args := by
  cases mode with
  | code => exact E.node_within h func args
  | tree => exact E.build_within hρ kind func args

/-- The value in a mode does not depend on names that do not occur. -/
theorem read_within {deep root : Bool} (hρ : Spares ρ) (hapt : Apt n)
    (hn : ∀ s ∈ n.nameTexts, ρ s = none) :
    (E.within ρ).read deep root mode n = E.read deep root mode n := by
  induction n using children_induction generalizing mode root with
  | step n ih =>
    have ih : ∀ {mode root}, ∀ m ∈ n.children,
        (E.within ρ).read deep root mode m = E.read deep root mode m :=
      fun m hm => ih m hm (hapt.of_mem hm) fun s hs => hn s (nameTexts_of_child hm hs)
    cases hcall : root && n.isCallOf mode.word with
    | true =>
      obtain ⟨hroot, hcall⟩ := Bool.and_eq_true_iff.mp hcall
      obtain ⟨content, hargs⟩ := hapt.self mode hcall
      rw [read_of_call _ hroot hcall hargs, read_of_call _ hroot hcall hargs]
      exact ih content (mem_append_right _ (by simp [hargs]))
    | false =>
      have hparts := map_children_congr (f := (E.within ρ).read deep true mode)
        (g := E.read deep true mode) ih
      rw [read_of_not _ hcall, read_of_not _ hcall, hparts.1, hparts.2]
      refine E.make_within hρ (fun s hs => hn s ?_) _ _
      exact nameTexts_self (by simp [hs, Kind.nameTexts])

/-! ### Calls that are left -/

/-- Whether code has a call of a word, and its name. -/
def callsOf (word : String) : Evaluator (Bool × Option String) where
  node kind func args :=
    ((Node.make kind none []).isCall && func.bind (·.2) == some word ||
      (func.map (·.1)).getD false || args.any (·.1), (Node.make kind none []).name?)

theorem value_callsOf {word : String} (h : ∀ c ∈ n.walk, c.type = none) :
    (callsOf word).value n = (n.walk.any (·.isCallOf word), n.name?) := by
  induction n using children_induction with
  | step n ih =>
    have hparts : n.parts = n.children := by
      rw [parts, h n n.self_mem_walk, Option.toList_none, append_nil, children]
    have hvalue := map_children_congr fun m hm => ih m hm fun c hc =>
      h c (mem_walk_of_mem_parts (child_mem_parts hm) hc)
    have hcall : (n.isCall && (n.func.map fun m =>
        (m.walk.any (·.isCallOf word), m.name?)).bind (·.2) == some word) = n.isCallOf word := by
      rw [isCallOf, funcName?]
      cases n.func <;> rfl
    have hfunc : ((n.func.map fun m => (m.walk.any (·.isCallOf word), m.name?)).map (·.1)).getD false =
        n.func.toList.any fun m => m.walk.any (·.isCallOf word) := by
      cases n.func <;> simp
    rw [value_eq, hvalue.1, hvalue.2, walk_eq, hparts, any_cons, any_flatMap,
      children, any_append, ← hcall, ← hfunc, ← Bool.or_assoc]
    refine Prod.ext ?_ rfl
    simp only [callsOf, any_map]
    rfl

section

variable {word : String}

/-- In a constructor call, only the calls in its parts are left. -/
theorem build_callsOf (hword : isClassName word = false) (kind : Kind)
    {func : Option (Bool × Option String)} {args : List (Bool × Option String)}
    (hfunc : ∀ x ∈ func, x.1 = false) (hargs : ∀ x ∈ args, x.1 = false) :
    (callsOf word).build kind func args = (false, none) := by
  have hcall : ∀ f vs, isClassName f = true → (∀ x ∈ vs, x.1 = false) →
      (callsOf word).call f vs = (false, none) := by
    intro f vs hf hvs
    have hne : f ≠ word := by
      rintro rfl
      rw [hf] at hword
      cases hword
    simpa [call, name, callsOf, Node.make, Node.isCall, Node.name?, hne] using hvs
  have htext : ∀ s, ((callsOf word).text s).1 = false := fun _ => rfl
  have haffix : ∀ a, ((callsOf word).affix a).1 = false := by
    intro a
    cases a with
    | none => rfl
    | some a => rw [affix, hcall "Identifier" _ (by decide) (by simp [htext])]
  have hlist : ((callsOf word).list args).1 = false := by
    simpa [list, name, callsOf, Node.make, Node.isCall] using hargs
  have hparts : ∀ x ∈ func.toList ++ [(callsOf word).list args], x.1 = false := by
    intro x hx
    rcases mem_append.mp hx with hx | hx
    · exact hfunc x (Option.mem_toList.mp hx)
    · exact mem_singleton.mp hx ▸ hlist
  refine hcall _ _ (isClassName_className kind) ?_
  cases kind with
  | name t => simp [constructorArgs, htext]
  | int digits tail | float digits tail => simp [constructorArgs, htext, haffix]
  | str t lead tail => simp [constructorArgs, htext, haffix]
  | unary op | trailing op | binary cls op => simp [constructorArgs, htext, hlist]
  | _ => exact hparts

/-- Nothing is left to be expanded in what a tree means: there is no call of the word, if those that
    stand in code are quotations. -/
theorem meaning_callsOf (hword : isClassName word = false) (hn : Apt n) (h : Noticed mode n)
    (hcode : ∀ p ∈ positions mode n, p.1 = .code → p.2.isCallOf word = true →
      p.2.isCallOf "quote" = true) :
    ((callsOf word).meaning mode n).1 = false ∧ (n.isCallOf mode.word = false →
      ((callsOf word).meaning mode n).2 = if mode = .code then n.name? else none) := by
  induction n using children_induction generalizing mode with
  | step n ih =>
    rw [positions_eq] at hcode
    cases hcall : n.isCallOf mode.word with
    | true =>
      obtain ⟨content, hargs⟩ := hn.self mode hcall
      have hmem : content ∈ n.args := by simp [hargs]
      have hchild : content ∈ n.children := mem_append_right _ hmem
      have hcontent := ih content hchild (hn.of_mem hchild) (h.content hcall hmem) fun p hp =>
        hcode p (by
          rw [if_pos hcall]
          exact mem_cons_of_mem _ (mem_flatMap.mpr ⟨content, hmem, hp⟩))
      refine ⟨?_, nofun⟩
      rw [meaning_of_call _ hcall hargs]
      exact hcontent.1
    | false =>
      rw [hcall, if_neg Bool.false_ne_true] at hcode
      have ih : ∀ m ∈ n.children, ((callsOf word).meaning mode m).1 = false ∧
          (m.isCallOf mode.word = false →
            ((callsOf word).meaning mode m).2 = if mode = .code then m.name? else none) :=
        fun m hm => ih m hm (hn.of_mem hm) (h.part hcall hm) fun p hp =>
          hcode p (mem_cons_of_mem _ (mem_flatMap.mpr ⟨m, hm, hp⟩))
      have hfunc : ∀ x ∈ n.func.map ((callsOf word).meaning mode), x.1 = false := by
        intro x hx
        obtain ⟨f, hf, rfl⟩ := Option.map_eq_some_iff.mp hx
        exact (ih f (mem_append_left _ (Option.mem_toList.mpr hf))).1
      have hargs : ∀ x ∈ n.args.map ((callsOf word).meaning mode), x.1 = false := by
        intro x hx
        obtain ⟨a, ha, rfl⟩ := mem_map.mp hx
        exact (ih a (mem_append_right _ ha)).1
      rw [meaning_of_not _ hcall]
      cases mode with
      | tree =>
        rw [make, build_callsOf hword n.kind hfunc hargs]
        exact ⟨rfl, fun _ => rfl⟩
      | code =>
        refine ⟨?_, fun _ => rfl⟩
        have hself : (n.isCall && (n.func.map ((callsOf word).meaning .code)).bind (·.2) ==
            some word) = false := by
          by_contra hself
          rw [Bool.not_eq_false, Bool.and_eq_true, beq_iff_eq] at hself
          obtain ⟨x, hx, hname⟩ := Option.bind_eq_some_iff.mp hself.2
          obtain ⟨f, hf, rfl⟩ := Option.map_eq_some_iff.mp hx
          have hmem : f ∈ n.children := mem_append_left _ (Option.mem_toList.mpr hf)
          cases hquote : f.isCallOf Mode.code.word with
          | false =>
            -- a name keeps its value, so that the call was one of the word before
            have hword : n.isCallOf word = true := by
              rw [isCallOf, hself.1, funcName?, hf, Option.bind_some,
                ← hname, (ih f hmem).2 hquote]
              exact beq_self_eq_true _
            have := hcode _ mem_cons_self rfl hword
            exact Bool.false_ne_true (hcall.symm.trans this)
          | true =>
            -- a quotation means a constructor call, which has no name
            obtain ⟨content, hcontent⟩ := (hn.of_mem hmem).self .code hquote
            have hnot := (h.part hcall hmem).self hquote content (by simp [hcontent])
            rw [meaning_of_call _ hquote hcontent, meaning_of_not _ hnot] at hname
            cases hname
        have hany : ((n.func.map ((callsOf word).meaning .code)).map (·.1)).getD false = false := by
          cases hf : n.func with
          | none => rfl
          | some f => exact hfunc _ (by rw [hf]; rfl)
        change (_ || _ || _) = false
        rw [hany, Bool.or_false, Bool.or_eq_false_iff, any_eq_false]
        exact ⟨hself, fun x hx => by simp [hargs x hx]⟩

end

end Evaluator

end Macro

end Cppward
