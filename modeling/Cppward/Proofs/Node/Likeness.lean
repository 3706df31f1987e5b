import Cppward.Node.Text
import Mathlib.Data.List.Forall2

namespace Cppward

open List
open Bool (and_eq_true)

/-!
# Likeness of trees

Two trees are compared by what a reader of the program sees: the classes of their nodes, operators,
names, literals and shape.  Labels, offsets and declared types are left aside.

* `Node.induction` — the induction principle that proofs about trees use.
* `Node.alike same` — trees of one shape whose kinds are related by `same` at every place.
* `Kind.agrees`, `Kind.coincides` — the two relations in use: `agrees` compares classes and the text
  of leaves, `coincides` operators as well.
* `Node.operators` — the operators of a tree in order.  Trees that agree coincide exactly when they
  have the same operators (`alike_coincides_iff`).
* `Node.wellFormed` — the trees that the grammar builds: every class of node has the parts that it
  needs.  Such a tree has a text (`text_ne_empty`), and two childless ones of one class with the
  same text are alike (`alike_of_text_eq`).
-/

variable {α β : Type} {a n : Node} {k : Kind} {s : String} {args as bs : List Node}

/-- Induction over trees: a property of the applied node, of the arguments and of the declared type
    passes to the whole. -/
theorem Node.induction {motive : Node → Prop}
    (step : ∀ n : Node, (∀ f ∈ n.func, motive f) → (∀ a ∈ n.args, motive a) →
      (∀ t ∈ n.type, motive t) → motive n) : ∀ n, motive n
  | ⟨info, kind, func, args, type⟩ => by
    refine step _ ?_ ?_ ?_
    · intro f hf
      exact Node.induction step f
    · intro a ha
      exact Node.induction step a
    · intro t ht
      exact Node.induction step t
termination_by n => sizeOf n
decreasing_by
  · obtain rfl : func = some f := hf
    simp only [Node.mk.sizeOf_spec, Option.some.sizeOf_spec]
    omega
  · have hlt : sizeOf a < sizeOf args := sizeOf_lt_of_mem ha
    simp only [Node.mk.sizeOf_spec]
    omega
  · obtain rfl : type = some t := ht
    simp only [Node.mk.sizeOf_spec, Option.some.sizeOf_spec]
    omega

/-! ### Recursion over lists of trees -/

theorem eq_map {f : α → β} {g : List α → List β} (hnil : g [] = [])
    (hcons : ∀ a as, g (a :: as) = f a :: g as) (as : List α) : g as = as.map f := by
  induction as with
  | nil => exact hnil
  | cons a as ih => rw [hcons, ih, map_cons]

theorem eq_flatMap {f : α → List β} {g : List α → List β} (hnil : g [] = [])
    (hcons : ∀ a as, g (a :: as) = f a ++ g as) (as : List α) : g as = as.flatMap f := by
  induction as with
  | nil => exact hnil
  | cons a as ih => rw [hcons, ih, flatMap_cons]

/-! ### Kinds -/

namespace Kind

/-- The text of a leaf: a name, or a literal with its affixes. -/
def leafText? : Kind → Option String
  | .name s => some s
  | .int digits tail | .float digits tail => some (digits ++ affixText tail)
  | .str s lead tail => some (literalText s lead tail)
  | _ => none

/-- Two kinds of one class and, for leaves, with one text. -/
def agrees (a b : Kind) : Bool := a.sameClass b && a.leafText? == b.leafText?

/-- Two kinds that agree and have the same operator. -/
def coincides (a b : Kind) : Bool := a.agrees b && a.op? == b.op?

theorem agrees_refl (k : Kind) : k.agrees k = true := by
  simp [agrees, sameClass]

/-- Whether a kind has an operator is a matter of its class. -/
theorem op?_isSome_of_agrees {a b : Kind} (h : a.agrees b = true) :
    a.op?.isSome = b.op?.isSome := by
  have hclass : a.className = b.className := by
    simp only [agrees, sameClass, and_eq_true, beq_iff_eq] at h
    exact h.1
  have hclassified : ∀ k : Kind, k.op?.isSome =
      ["UnOp", "LeftAssociativeUnOp", "BinOp", "TypeOp", "SyntaxTypeOp", "AttributeAccess",
        "ArrowOp", "ScopeResolution", "Assign", "NamedParameter", "BitwiseOrOp",
        "EqualsCompareOp"].contains k.className := by
    intro k
    cases k with
    | binary cls op => cases cls <;> simp [op?, className, Binary.className]
    | _ => simp [op?, className]
  rw [hclassified a, hclassified b, hclass]

/-- The classes whose nodes are nothing but a list of elements. -/
def isCollection : Kind → Bool
  | .list | .tuple | .braces | .block | .module => true
  | _ => false

theorem leafText?_isSome_eq (k : Kind) : k.leafText?.isSome =
    ["Identifier", "IntegerLiteral", "FloatLiteral", "StringLiteral"].contains k.className := by
  cases k with
  | binary cls op => cases cls <;> simp [leafText?, className, Binary.className]
  | _ => simp [leafText?, className]

theorem isCollection_eq (k : Kind) : k.isCollection =
    ["ListLiteral", "TupleLiteral", "BracedLiteral", "Block", "Module"].contains k.className := by
  cases k with
  | binary cls op => cases cls <;> simp [isCollection, className, Binary.className]
  | _ => simp [isCollection, className]

/-- A node of the kind has its parts: `hasFunc` says whether it applies something, `arity` how many
    arguments it has.  Names and numbers have a text. -/
def hasParts (hasFunc : Bool) (arity : Nat) : Kind → Bool
  | .name s => s != "" && !hasFunc && arity == 0
  | .int digits _ | .float digits _ => digits != "" && !hasFunc && arity == 0
  | .str .. => !hasFunc && arity == 0
  | .unary _ | .trailing _ | .parens | .wrapper => !hasFunc && arity == 1
  | .binary .. => !hasFunc && arity == 2
  | .call _ | .index | .bracedCall | .template => hasFunc
  | .list | .tuple | .braces | .block | .module => !hasFunc

theorem arity_of_leafText? {hasFunc : Bool}
    (h : k.leafText? = some s) (hparts : k.hasParts hasFunc args.length = true) : args = [] := by
  cases k <;> simp_all [leafText?, hasParts]

theorem leafText?_eq_none {func : Option Node}
    (h : ¬(func = none ∧ args = [])) (hparts : k.hasParts func.isSome args.length = true) :
    k.leafText? = none := by
  cases k <;> simp_all [leafText?, hasParts]

/-- A childless node that is no leaf is a collection without elements. -/
theorem isCollection_of_hasParts (h : k.leafText? = none)
    (hparts : k.hasParts false 0 = true) : k.isCollection = true := by
  cases k <;> simp_all [leafText?, hasParts, isCollection]

end Kind

/-! ### Trees of one shape -/

namespace Node

mutual
/-- Trees of one shape whose kinds are related by `same` at every place. -/
def alike (same : Kind → Kind → Bool) : Node → Node → Bool
  | ⟨_, kind, func, args, _⟩, n =>
    same kind n.kind && alikeOption same func n.func && alikeList same args n.args

def alikeOption (same : Kind → Kind → Bool) : Option Node → Option Node → Bool
  | none, none => true
  | some a, some b => alike same a b
  | _, _ => false

def alikeList (same : Kind → Kind → Bool) : List Node → List Node → Bool
  | [], [] => true
  | a :: as, b :: bs => alike same a b && alikeList same as bs
  | _, _ => false
end

mutual
/-- The operators of a tree: that of a node, those of what it applies, those of its arguments. -/
def operators : Node → List String
  | ⟨_, kind, func, args, _⟩ => kind.op?.toList ++ (operatorsOption func ++ operatorsList args)

def operatorsOption : Option Node → List String
  | none => []
  | some n => n.operators

def operatorsList : List Node → List String
  | [] => []
  | n :: ns => n.operators ++ operatorsList ns
end

variable {same : Kind → Kind → Bool}

theorem alikeOption_eq (f g : Option Node) :
    alikeOption same f g = alikeList same f.toList g.toList := by
  cases f <;> cases g <;> simp [alikeOption, alikeList]

theorem operatorsOption_eq (f : Option Node) : operatorsOption f = operatorsList f.toList := by
  cases f <;> simp [operatorsOption, operatorsList]

theorem alike_iff (a b : Node) :
    a.alike same b = true ↔ same a.kind b.kind = true ∧
      alikeList same a.func.toList b.func.toList = true ∧ alikeList same a.args b.args = true := by
  obtain ⟨info, kind, func, args, type⟩ := a
  rw [alike, and_eq_true, and_eq_true, and_assoc, alikeOption_eq]

theorem operators_eq (n : Node) :
    n.operators = n.kind.op?.toList ++ (operatorsList n.func.toList ++ operatorsList n.args) := by
  obtain ⟨info, kind, func, args, type⟩ := n
  rw [operators, operatorsOption_eq]

theorem alikeList_iff :
    alikeList same as bs = true ↔ List.Forall₂ (fun a b => a.alike same b = true) as bs := by
  induction as generalizing bs with
  | nil => cases bs <;> simp [alikeList]
  | cons a as ih => cases bs <;> simp [alikeList, ih]

theorem alike_refl (hsame : ∀ k, same k k = true) (n : Node) : n.alike same n = true := by
  induction n using Node.induction with
  | step n hfunc hargs _ =>
    rw [alike_iff, alikeList_iff, alikeList_iff, forall₂_same, forall₂_same]
    exact ⟨hsame n.kind, fun f hf => hfunc f (Option.mem_toList.mp hf), hargs⟩

/-- Lists of agreeing trees whose elements have equally many operators have equally many. -/
theorem operatorsList_length (h : alikeList Kind.agrees as bs = true)
    (hlen : ∀ a ∈ as, ∀ b, a.alike Kind.agrees b = true →
      a.operators.length = b.operators.length) :
    (operatorsList as).length = (operatorsList bs).length := by
  rw [alikeList_iff] at h
  induction h with
  | nil => rfl
  | @cons a b as bs hab _ ih =>
    rw [operatorsList, operatorsList, length_append, length_append,
      hlen a mem_cons_self b hab, ih fun x hx => hlen x (mem_cons_of_mem a hx)]

/-- Trees that agree have equally many operators, since classes decide where operators stand. -/
theorem operators_length :
    ∀ b, a.alike Kind.agrees b = true → a.operators.length = b.operators.length := by
  induction a using Node.induction with
  | step a hfunc hargs _ =>
    intro b h
    obtain ⟨hkind, hf, has⟩ := (alike_iff a b).mp h
    have hop : a.kind.op?.toList.length = b.kind.op?.toList.length := by
      rw [Option.length_toList, Option.length_toList, Kind.op?_isSome_of_agrees hkind]
    rw [operators_eq a, operators_eq b, length_append, length_append,
      length_append, length_append, hop,
      operatorsList_length hf fun f hf => hfunc f (Option.mem_toList.mp hf),
      operatorsList_length has hargs]

/-- For lists of agreeing trees, to coincide is to have the same operators, if it is so for the
    elements. -/
theorem alikeList_coincides_iff (h : alikeList Kind.agrees as bs = true)
    (hiff : ∀ a ∈ as, ∀ b, a.alike Kind.agrees b = true →
      (a.alike Kind.coincides b = true ↔ a.operators = b.operators)) :
    alikeList Kind.coincides as bs = true ↔ operatorsList as = operatorsList bs := by
  rw [alikeList_iff] at h
  induction h with
  | nil => simp [alikeList]
  | @cons a b as bs hab _ ih =>
    have hrest := ih fun x hx => hiff x (mem_cons_of_mem a hx)
    rw [alikeList, and_eq_true, hiff a mem_cons_self b hab, hrest, operatorsList,
      operatorsList]
    constructor
    · rintro ⟨h₁, h₂⟩
      rw [h₁, h₂]
    · -- the heads have equally many operators, so the lists split at the same place
      intro heq
      exact append_inj heq (operators_length b hab)

/-- **Operators decide.**  Trees that agree in everything but their operators coincide exactly when
    they have the same operators. -/
theorem alike_coincides_iff : ∀ b, a.alike Kind.agrees b = true →
      (a.alike Kind.coincides b = true ↔ a.operators = b.operators) := by
  induction a using Node.induction with
  | step a hfunc hargs _ =>
    intro b h
    obtain ⟨hkind, hf, has⟩ := (alike_iff a b).mp h
    have hfunc' := alikeList_coincides_iff hf fun f hf => hfunc f (Option.mem_toList.mp hf)
    have hargs' := alikeList_coincides_iff has hargs
    have hop : a.kind.coincides b.kind = true ↔ a.kind.op?.toList = b.kind.op?.toList := by
      rw [Kind.coincides, hkind, Bool.true_and, beq_iff_eq]
      cases a.kind.op? <;> cases b.kind.op? <;> simp
    rw [alike_iff, operators_eq a, operators_eq b, hop, hfunc', hargs']
    constructor
    · rintro ⟨h₁, h₂, h₃⟩
      rw [h₁, h₂, h₃]
    · intro heq
      have hlen : a.kind.op?.toList.length = b.kind.op?.toList.length := by
        rw [Option.length_toList, Option.length_toList, Kind.op?_isSome_of_agrees hkind]
      obtain ⟨h₁, hrest⟩ := append_inj heq hlen
      have hlen' := operatorsList_length hf fun f _ => operators_length (a := f)
      exact ⟨h₁, append_inj hrest hlen'⟩

/-! ### Trees of the grammar -/

mutual
/-- Every node of the tree has the parts that its kind needs. -/
def wellFormed : Node → Bool
  | ⟨_, kind, func, args, _⟩ =>
    kind.hasParts func.isSome args.length && wellFormedOption func && wellFormedList args

def wellFormedOption : Option Node → Bool
  | none => true
  | some n => n.wellFormed

def wellFormedList : List Node → Bool
  | [] => true
  | n :: ns => n.wellFormed && wellFormedList ns
end

theorem wellFormed_iff (n : Node) :
    n.wellFormed = true ↔ n.kind.hasParts n.func.isSome n.args.length = true ∧
      (∀ f ∈ n.func, f.wellFormed = true) ∧ ∀ a ∈ n.args, a.wellFormed = true := by
  obtain ⟨info, kind, func, args, type⟩ := n
  have hlist : ∀ ns : List Node, wellFormedList ns = true ↔ ∀ n ∈ ns, n.wellFormed = true := by
    intro ns
    induction ns with
    | nil => simp [wellFormedList]
    | cons n ns ih => simp [wellFormedList, ih]
  rw [wellFormed, and_eq_true, and_eq_true, and_assoc, hlist]
  cases func <;> simp [wellFormedOption]

/-- Every node has a text. -/
theorem text_ne_empty (h : n.wellFormed = true) : n.text ≠ "" := by
  have hparts := ((wellFormed_iff n).mp h).1
  obtain ⟨info, kind, func, args, type⟩ := n
  rw [text.eq_def]
  cases kind with
  | name s =>
    simp only [Kind.hasParts, and_eq_true, bne_iff_ne] at hparts
    exact hparts.1.1
  | int digits tail =>
    simp only [Kind.hasParts, and_eq_true, bne_iff_ne] at hparts
    simp [hparts.1.1]
  | float digits tail =>
    simp only [Kind.hasParts, and_eq_true, bne_iff_ne] at hparts
    simp [hparts.1.1]
  | str s lead tail => simp [literalText, escape]
  | binary cls op =>
    by_cases hcls : cls = .attribute
    · -- the only text without brackets: a dot stands between the two operands
      subst hcls
      simp only [Kind.hasParts, and_eq_true, beq_iff_eq] at hparts
      obtain ⟨lhs, rhs, rfl⟩ := length_eq_two.mp hparts.2
      show ".".intercalate [lhs.text, rhs.text] ≠ ""
      simp
    · cases cls <;> simp_all
  | _ => simp

/-- A list of trees of the grammar that prints as nothing has no elements. -/
theorem eq_nil_of_intercalate_eq {ns : List Node} (h : ∀ n ∈ ns, n.wellFormed = true)
    (hempty : ", ".intercalate (textList ns) = "") : ns = [] := by
  cases ns with
  | nil => rfl
  | cons n ns =>
    have hn : n.text ≠ "" := text_ne_empty (h n mem_cons_self)
    cases ns with
    | nil =>
      have hsingle : ", ".intercalate [n.text] = "" := hempty
      rw [String.intercalate_singleton] at hsingle
      exact absurd hsingle hn
    | cons m ms =>
      have hmore : ", ".intercalate (n.text :: m.text :: textList ms) = "" := hempty
      rw [String.intercalate_cons_cons, String.append_assoc, String.append_eq_empty_iff] at hmore
      exact absurd hmore.1 hn

theorem text_of_leafText? (h : n.kind.leafText? = some s) : n.text = s := by
  obtain ⟨info, kind, func, args, type⟩ := n
  rw [text.eq_def]
  cases kind <;> simp_all [Kind.leafText?]

theorem text_of_isCollection (h : n.kind.isCollection = true) :
    n.text = n.kind.className ++ "(" ++ ", ".intercalate (textList n.args) ++ ")" := by
  obtain ⟨info, kind, func, args, type⟩ := n
  rw [text.eq_def]
  cases kind <;> simp_all [Kind.isCollection]

/-- Childless trees of the grammar that are of one class and print alike agree. -/
theorem alike_of_text_eq {p : Node} (hp : p.wellFormed = true) (hn : n.wellFormed = true)
    (hclass : p.kind.className = n.kind.className) (hpf : p.func = none) (hnf : n.func = none)
    (hargs : n.args = []) (htext : p.text = n.text) : p.alike Kind.agrees n = true := by
  obtain ⟨hparts, -, hpargs⟩ := (wellFormed_iff p).mp hp
  obtain ⟨hnparts, -, -⟩ := (wellFormed_iff n).mp hn
  have hleaf : p.kind.leafText?.isSome = n.kind.leafText?.isSome := by
    rw [Kind.leafText?_isSome_eq, Kind.leafText?_isSome_eq, hclass]
  suffices h : p.kind.leafText? = n.kind.leafText? ∧ p.args = [] by
    rw [alike_iff, hpf, hnf, hargs, h.2]
    simp [Kind.agrees, Kind.sameClass, hclass, h.1, alikeList]
  rw [hpf] at hparts
  rw [hnf, hargs] at hnparts
  cases hnl : n.kind.leafText? with
  | some s =>
    obtain ⟨s', hpl⟩ := Option.isSome_iff_exists.mp (hleaf.trans (by rw [hnl]; rfl))
    refine ⟨?_, Kind.arity_of_leafText? hpl hparts⟩
    rw [hpl, ← text_of_leafText? hpl, htext, text_of_leafText? hnl]
  | none =>
    have hnc : n.kind.isCollection = true := Kind.isCollection_of_hasParts hnl hnparts
    have hpc : p.kind.isCollection = true := by
      rw [Kind.isCollection_eq, hclass, ← Kind.isCollection_eq, hnc]
    refine ⟨?_, eq_nil_of_intercalate_eq hpargs ?_⟩
    · rw [hnl] at hleaf
      exact Option.not_isSome_iff_eq_none.mp (by simp [hleaf])
    · rw [text_of_isCollection hpc, text_of_isCollection hnc, hclass, hargs] at htext
      have hcancel := String.append_left_inj _ |>.mp htext
      exact String.append_right_inj _ |>.mp hcancel

end Node
end Cppward
