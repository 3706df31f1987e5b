import Cppward.Analysis.Branch
import Cppward.Proofs.Node.Likeness

namespace Cppward.Analysis

open List Node

/-!
# The branches of an `if`

An `if` has a first branch, any number of `elif` branches and at most one `else`.  The body of each is
a block, or a single statement written inline.

* `Written` — how arguments say what an `if` says, with a number of bodies written inline.
* `Outcome` — what can come of one step, with the arguments said before and after it.  `outcome_step`
  is the step lemma, `normalizeIf_cases` the result of a whole run: blocks only, with the same
  conditions and statements, or a refusal of arguments that say nothing.
-/

/-! ### How branches are written -/

/-- What an `if` says: its conditions, and the statements under each of them. -/
structure Branching where
  condition : Node
  body : List Node
  elifs : List (Node × List Node) := []
  otherwise : Option (List Node) := none

/-- What the branches behind the first one say. -/
abbrev FurtherBranches := List (Node × List Node) × Option (List Node)

/-- A colon between two operands. -/
def IsColon (n lhs rhs : Node) : Prop := n.isTyped = true ∧ n.args = [lhs, rhs]

theorem IsColon.unique {n lhs rhs lhs' rhs' : Node} (h : IsColon n lhs rhs)
    (h' : IsColon n lhs' rhs') : lhs = lhs' ∧ rhs = rhs' := by
  simpa using h.2.symm.trans h'.2

/-- Arguments that write the branches behind the first one, `inline` of them without a block. -/
inductive WrittenFurther : (inline : Nat) → FurtherBranches → List Node → Prop
  | nil : WrittenFurther 0 ([], none) []
  | elif {inline : Nat} {elifs : List (Node × List Node)} {otherwise : Option (List Node)}
      {head word condition block : Node} {rest : List Node}
      (hhead : IsColon head word condition) (hword : word.isNamed "elif" = true)
      (hblock : block.isBlock = true) (hrest : WrittenFurther inline (elifs, otherwise) rest) :
      WrittenFurther inline ((condition, block.args) :: elifs, otherwise) (head :: block :: rest)
  | elifInline {inline : Nat} {elifs : List (Node × List Node)} {otherwise : Option (List Node)}
      {head word branch condition statement : Node} {rest : List Node}
      (hhead : IsColon head word branch) (hword : word.isNamed "elif" = true)
      (hbranch : IsColon branch condition statement)
      (hrest : WrittenFurther inline (elifs, otherwise) rest) :
      WrittenFurther (inline + 1) ((condition, [statement]) :: elifs, otherwise) (head :: rest)
  | otherwise {word block : Node} (hword : word.isNamed "else" = true)
      (hblock : block.isBlock = true) : WrittenFurther 0 ([], some block.args) [word, block]
  | otherwiseInline {head word statement : Node} (hhead : IsColon head word statement)
      (hword : word.isNamed "else" = true) : WrittenFurther 1 ([], some [statement]) [head]

/-- Arguments that write the branches of an `if`, `inline` of them without a block.  An assignment
    is no inline body of the first branch. -/
inductive Written : (inline : Nat) → Branching → List Node → Prop
  | block {inline : Nat} {elifs : List (Node × List Node)} {otherwise : Option (List Node)}
      {condition body : Node} {rest : List Node} (hbody : body.isBlock = true)
      (hrest : WrittenFurther inline (elifs, otherwise) rest) :
      Written inline ⟨condition, body.args, elifs, otherwise⟩ (condition :: body :: rest)
  | inline {inline : Nat} {elifs : List (Node × List Node)} {otherwise : Option (List Node)}
      {first condition statement : Node} {rest : List Node}
      (hfirst : IsColon first condition statement) (hassign : statement.isAssign = false)
      (hrest : WrittenFurther inline (elifs, otherwise) rest) :
      Written (inline + 1) ⟨condition, [statement], elifs, otherwise⟩ (first :: rest)

/-! ### Kinds of arguments -/

section Kinds

variable {n : Node} {text : String}

theorem isBlock_of_isTyped (h : n.isTyped = true) : n.isBlock = false := by
  obtain ⟨info, kind, func, args, type⟩ := n
  cases kind <;>
    first
    | rfl
    | cases h

theorem isTyped_of_isBlock (h : n.isBlock = true) : n.isTyped = false := by
  by_contra htyped
  rw [Bool.not_eq_false] at htyped
  rw [isBlock_of_isTyped htyped] at h
  cases h

theorem kind_of_isNamed (h : n.isNamed text = true) : n.kind = .name text := by
  obtain ⟨info, kind, func, args, type⟩ := n
  cases kind with
  | name s =>
    rw [isNamed, Node.name?, beq_iff_eq, Option.some.injEq] at h
    rw [h]
  | _ => cases h

theorem isBlock_of_isNamed (h : n.isNamed text = true) : n.isBlock = false := by
  rw [isBlock, kind_of_isNamed h]
  rfl

theorem isTyped_of_isNamed (h : n.isNamed text = true) : n.isTyped = false := by
  rw [isTyped, isClause, binary?, kind_of_isNamed h]
  rfl

theorem isNamed_unique {text' : String} (h : n.isNamed text = true) (h' : n.isNamed text' = true) :
    text = text' := by
  have := (kind_of_isNamed h).symm.trans (kind_of_isNamed h')
  rwa [Kind.name.injEq] at this

theorem lhsName?_of_isNamed {word rhs : Node} (h : n.args = [word, rhs])
    (hword : word.isNamed text = true) : n.lhsName? = some text := by
  rw [lhsName?, lhs?, h, getElem?_cons_zero, Option.bind_some]
  exact beq_iff_eq.mp hword

end Kinds

/-- A tree as it is written below a module: every node has the parts of its kind, and a colon gives
    a type. -/
inductive AsWritten : Node → Prop
  | intro {n : Node} (hparts : n.kind.hasParts n.func.isSome n.args.length = true)
      (hcolon : n.isTyped = true → n.kind = .binary .typed ":") (hmodule : n.kind ≠ .module)
      (hfunc : ∀ f ∈ n.func, AsWritten f) (hargs : ∀ a ∈ n.args, AsWritten a) : AsWritten n

namespace AsWritten

theorem args {n : Node} (h : AsWritten n) : ∀ a ∈ n.args, AsWritten a := by
  cases h with
  | intro _ _ _ _ hargs => exact hargs

theorem colon {n : Node} (h : AsWritten n) (htyped : n.isTyped = true) :
    n.kind = .binary .typed ":" ∧ n.func = none ∧ ∃ lhs rhs, n.args = [lhs, rhs] := by
  cases h with
  | intro hparts hcolon _ _ _ =>
    have hkind := hcolon htyped
    rw [hkind, Kind.hasParts, Bool.and_eq_true, Bool.not_eq_true', Option.isSome_eq_false_iff,
      Option.isNone_iff_eq_none, beq_iff_eq] at hparts
    exact ⟨hkind, hparts.1, length_eq_two.mp hparts.2⟩

theorem ofBlock {body : Node} (h : AsWritten body) : AsWritten (ofBlock [body]) := by
  refine .intro rfl (fun htyped => by cases htyped) Kind.noConfusion (fun f hf => by cases hf) ?_
  intro a ha
  rwa [mem_singleton.mp ha]

theorem ident {text : String} (h : text ≠ "") : AsWritten (Node.ident text) := by
  refine .intro ?_ (fun htyped => by cases htyped) Kind.noConfusion (fun f hf => by cases hf)
    fun a ha => by cases ha
  simpa [Node.ident, make, Kind.hasParts] using h

theorem ofColon {lhs rhs : Node} (hlhs : AsWritten lhs) (hrhs : AsWritten rhs) :
    AsWritten (ofBinary .typed ":" lhs rhs) := by
  refine .intro rfl (fun _ => rfl) Kind.noConfusion (fun f hf => by cases hf) ?_
  simp only [ofBinary, make, forall_mem_cons]
  exact ⟨hlhs, hrhs, by simp⟩

theorem operands {n lhs rhs : Node} (h : AsWritten n) (hcolon : IsColon n lhs rhs) :
    AsWritten lhs ∧ AsWritten rhs :=
  ⟨h.args lhs (by simp [hcolon.2]), h.args rhs (by simp [hcolon.2])⟩

end AsWritten

def elifHead (head word condition : Node) : Node :=
  { head.withId 0 with kind := .binary .typed (head.op?.getD ""), args := [word, condition] }

theorem isColon_elifHead (head word condition : Node) :
    IsColon (elifHead head word condition) word condition := ⟨rfl, rfl⟩

/-- A property of arguments that is kept when an inline body gets a block. -/
structure Kept (P : Node → Prop) : Prop where
  body {n condition statement : Node} : IsColon n condition statement → P n →
    P condition ∧ P (Node.ofBlock [statement])
  elif {n word branch condition statement : Node} : IsColon n word branch →
    IsColon branch condition statement → P n →
      P (elifHead n word condition) ∧ P (Node.ofBlock [statement])

theorem kept_asWritten : Kept AsWritten where
  body hcolon h := ⟨(h.operands hcolon).1, (h.operands hcolon).2.ofBlock⟩
  elif {n word branch condition statement} hhead hbranch h := by
    obtain ⟨hword, hbranch'⟩ := h.operands hhead
    obtain ⟨hcondition, hstatement⟩ := hbranch'.operands hbranch
    refine ⟨?_, hstatement.ofBlock⟩
    -- the new head keeps the colon, and has two operands as before
    obtain ⟨hkind, hfunc, -⟩ := h.colon hhead.1
    have hop : n.op? = some ":" := by
      rw [op?, hkind]
      rfl
    have hparts : Kind.hasParts n.func.isSome 2 (.binary .typed (n.op?.getD "")) = true := by
      rw [hfunc]
      rfl
    refine .intro hparts (fun _ => ?_) Kind.noConfusion (fun f hf => ?_) ?_
    · rw [elifHead, hop]
      rfl
    · cases hfunc.symm.trans hf
    · simp [elifHead, hword, hcondition]

def startsWithBlock (l : List Node) : Bool := (l.head?.map Node.isBlock).getD false

/-! ### What the next argument leaves open

One equivalence for each form that an argument behind the first branch can have. -/

section Forms

variable {inline : Nat} {b : FurtherBranches} {head word condition branch block statement : Node}
  {rest : List Node}

theorem WrittenFurther.head_cases (h : WrittenFurther inline b (head :: rest)) :
    head.isNamed "else" = true ∨ ∃ word rhs, IsColon head word rhs ∧
      (word.isNamed "elif" = true ∨ word.isNamed "else" = true) := by
  cases h with
  | elif hhead hword _ _ | elifInline hhead hword _ _ => exact .inr ⟨_, _, hhead, .inl hword⟩
  | otherwise hword _ => exact .inl hword
  | otherwiseInline hhead hword => exact .inr ⟨_, _, hhead, .inr hword⟩

theorem WrittenFurther.isBlock_head (h : WrittenFurther inline b (head :: rest)) :
    head.isBlock = false := by
  obtain hword | ⟨word, rhs, hhead, -⟩ := h.head_cases
  · exact isBlock_of_isNamed hword
  · exact isBlock_of_isTyped hhead.1

theorem writtenFurther_nil_iff : WrittenFurther inline b [] ↔ inline = 0 ∧ b = ([], none) := by
  constructor
  · intro h
    cases h
    exact ⟨rfl, rfl⟩
  · rintro ⟨rfl, rfl⟩
    exact .nil

theorem writtenFurther_elif_iff (hhead : IsColon head word condition)
    (hword : word.isNamed "elif" = true) (hblock : block.isBlock = true) :
    WrittenFurther inline b (head :: block :: rest) ↔ ∃ further : FurtherBranches,
      b = ((condition, block.args) :: further.1, further.2) ∧ WrittenFurther inline further rest := by
  constructor
  · intro h
    cases h with
    | elif hhead' _ _ hrest =>
      obtain ⟨-, rfl⟩ := hhead.unique hhead'
      exact ⟨_, rfl, hrest⟩
    | elifInline _ _ _ hrest =>
      rw [hrest.isBlock_head] at hblock
      cases hblock
    | otherwise hword' _ =>
      rw [IsColon, isTyped_of_isNamed hword'] at hhead
      cases hhead.1
  · rintro ⟨further, rfl, hrest⟩
    exact .elif hhead hword hblock hrest

/-- An `elif` on one line opens with its own condition and goes on with the rest. -/
theorem writtenFurther_elifInline_iff (hhead : IsColon head word branch)
    (hword : word.isNamed "elif" = true) (hopen : startsWithBlock rest = false) :
    WrittenFurther inline b (head :: rest) ↔ ∃ k condition statement elifs otherwise,
      inline = k + 1 ∧ b = ((condition, [statement]) :: elifs, otherwise) ∧
        IsColon branch condition statement ∧ WrittenFurther k (elifs, otherwise) rest := by
  constructor
  · intro h
    cases h with
    | elif _ _ hblock _ =>
      rw [startsWithBlock, head?_cons, Option.map_some, Option.getD_some, hblock] at hopen
      cases hopen
    | elifInline hhead' _ hbranch hrest =>
      obtain ⟨-, rfl⟩ := hhead.unique hhead'
      exact ⟨_, _, _, _, _, rfl, rfl, hbranch, hrest⟩
    | otherwise hword' _ =>
      rw [IsColon, isTyped_of_isNamed hword'] at hhead
      cases hhead.1
    | otherwiseInline hhead' hword' =>
      obtain ⟨rfl, -⟩ := hhead.unique hhead'
      exact absurd (isNamed_unique hword hword') (by decide)
  · rintro ⟨k, condition, statement, elifs, otherwise, rfl, rfl, hbranch, hrest⟩
    exact .elifInline hhead hword hbranch hrest

theorem writtenFurther_otherwise_iff (hword : word.isNamed "else" = true) :
    WrittenFurther inline b (word :: rest) ↔ inline = 0 ∧ ∃ block, rest = [block] ∧
      block.isBlock = true ∧ b = ([], some block.args) := by
  have htyped : ¬word.isTyped = true := by simp [isTyped_of_isNamed hword]
  constructor
  · intro h
    cases h with
    | elif hhead _ _ _ => exact absurd hhead.1 htyped
    | elifInline hhead _ _ _ => exact absurd hhead.1 htyped
    | otherwise _ hblock => exact ⟨rfl, _, rfl, hblock, rfl⟩
    | otherwiseInline hhead _ => exact absurd hhead.1 htyped
  · rintro ⟨rfl, block, rfl, hblock, rfl⟩
    exact .otherwise hword hblock

theorem writtenFurther_otherwiseInline_iff (hhead : IsColon head word statement)
    (hword : word.isNamed "else" = true) :
    WrittenFurther inline b (head :: rest) ↔
      inline = 1 ∧ rest = [] ∧ b = ([], some [statement]) := by
  constructor
  · intro h
    cases h with
    | elif hhead' hword' _ _ | elifInline hhead' hword' _ _ =>
      obtain ⟨rfl, -⟩ := hhead.unique hhead'
      exact absurd (isNamed_unique hword hword') (by decide)
    | otherwise hword' _ =>
      rw [IsColon, isTyped_of_isNamed hword'] at hhead
      cases hhead.1
    | otherwiseInline hhead' _ =>
      obtain ⟨-, rfl⟩ := hhead.unique hhead'
      exact ⟨rfl, rfl, rfl⟩
  · rintro ⟨rfl, rfl, rfl⟩
    exact .otherwiseInline hhead hword

end Forms

/-! ### One step -/

/-- The number of arguments behind the first branch that are not followed by the block they
    announce. -/
def openFurther : List Node → Nat
  | [] => 0
  | a :: rest =>
    (if a.isTyped && (a.lhsName? == some "else" || !startsWithBlock rest) then 1 else 0) +
      openFurther rest

/-- The number of arguments of an `if` that are not followed by the block they announce. -/
def openBranches : List Node → Nat
  | [] => 0
  | _ :: rest => if startsWithBlock rest then openFurther (rest.drop 1) else 1 + openFurther rest

theorem openFurther_le (l : List Node) : openFurther l ≤ l.length := by
  induction l with
  | nil => exact Nat.le_refl 0
  | cons a rest ih =>
    rw [openFurther, length_cons]
    split <;> omega

theorem openBranches_le (args : List Node) : openBranches args ≤ args.length := by
  cases args with
  | nil => exact Nat.le_refl 0
  | cons a rest =>
    rw [openBranches, length_cons]
    have hdrop := openFurther_le (rest.drop 1)
    have hrest := openFurther_le rest
    rw [length_drop] at hdrop
    split <;> omega

/-- What can come of a step, in terms of what the arguments say, for a way `W` of saying it.  Either
    all bodies are blocks; or one inline body becomes a block, while `front` stays; or the arguments
    say nothing and are refused. -/
inductive Outcome {β : Type} (W : Nat → β → List Node → Prop) (count : List Node → Nat)
    (call : Node) (front args : List Node) : Except Failure (Option Node) → Prop
  | settled (b : β) (h : ∀ inline b', W inline b' args ↔ inline = 0 ∧ b' = b) :
      Outcome W count call front args (.ok none)
  | rewritten (new : List Node) (hcount : count args = count new + 1)
      (hkept : ∀ P, Kept P → (∀ a ∈ args, P a) → ∀ a ∈ new, P a)
      (h : ∀ inline b, W inline b args ↔ ∃ k, inline = k + 1 ∧ W k b new) :
      Outcome W count call front args
        (.ok (some { call.withId 0 with kind := .call true, args := front ++ new }))
  | refused (e : Failure) (hfault : (∀ a ∈ args, AsWritten a) → ∃ fault, e = .analysis fault none)
      (h : ∀ inline b, ¬W inline b args) : Outcome W count call front args (.error e)

/-- A branch with its block leaves what can come of the arguments behind it as it is. -/
theorem Outcome.behind {β γ : Type} {W : Nat → β → List Node → Prop} {V : Nat → γ → List Node → Prop}
    {count count' : List Node → Nat} {call head block : Node} {front rest : List Node}
    {r : Except Failure (Option Node)} {add : β → γ}
    (h : Outcome W count call (front ++ [head, block]) rest r)
    (hadd : ∀ inline c l, V inline c (head :: block :: l) ↔ ∃ b, c = add b ∧ W inline b l)
    (hcount : ∀ l, count' (head :: block :: l) = count l) :
    Outcome V count' call front (head :: block :: rest) r := by
  cases h with
  | settled b h =>
    refine .settled (add b) fun inline c => ?_
    simp only [hadd, h]
    constructor
    · rintro ⟨b, rfl, rfl, rfl⟩
      exact ⟨rfl, rfl⟩
    · rintro ⟨rfl, rfl⟩
      exact ⟨b, rfl, rfl, rfl⟩
  | rewritten new hopen hkept h =>
    have hassoc : front ++ [head, block] ++ new = front ++ head :: block :: new := by simp
    rw [hassoc]
    refine .rewritten (head :: block :: new) ?_ ?_ fun inline c => ?_
    · rw [hcount, hcount, hopen]
    · simp only [forall_mem_cons]
      exact fun P hP ⟨hh, hb, hl⟩ => ⟨hh, hb, hkept P hP hl⟩
    · simp only [hadd, h]
      constructor
      · rintro ⟨b, rfl, k, rfl, hrest⟩
        exact ⟨k, rfl, b, rfl, hrest⟩
      · rintro ⟨k, rfl, b, rfl, hrest⟩
        exact ⟨b, rfl, k, rfl, hrest⟩
  | refused e hfault h =>
    refine .refused e (fun hl => hfault fun x hx => hl x (by simp [hx])) fun inline c => ?_
    rw [hadd]
    rintro ⟨b, -, hrest⟩
    exact h inline b hrest

section Scan

open Branch (announces scan splice)

variable {call head word condition branch block statement prev a : Node} {front rest : List Node}

theorem announces_of_isBlock (h : a.isBlock = true) : announces a = false := by
  rw [announces, Bool.or_eq_false_iff, Bool.and_eq_false_iff]
  constructor
  · by_contra hnamed
    rw [Bool.not_eq_false] at hnamed
    rw [isBlock_of_isNamed hnamed] at h
    cases h
  · exact .inl (isTyped_of_isBlock h)

/-- A scan passes a block that is announced, and refuses every other one. -/
theorem scan_block (hargs : call.args = front ++ prev :: a :: rest) (hblock : a.isBlock = true) :
    scan call (front.length + 1) (a :: rest) =
      if announces prev then scan call (front.length + 2) rest
      else refuse (.strayBlock (front.length + 1)) := by
  rw [scan, if_pos hblock, hargs]
  simp

theorem splice_eq (hargs : call.args = front ++ a :: rest) (new : List Node) :
    splice call front.length new =
      { call.withId 0 with kind := .call true, args := front ++ (new ++ rest) } := by
  simp [splice, hargs]

/-- An `elif` with its block neither adds to what can come of the rest nor takes from it. -/
theorem Outcome.elif {r : Except Failure (Option Node)} (hhead : IsColon head word condition)
    (hword : word.isNamed "elif" = true) (hblock : block.isBlock = true)
    (h : Outcome WrittenFurther openFurther call (front ++ [head, block]) rest r) :
    Outcome WrittenFurther openFurther call front (head :: block :: rest) r := by
  refine h.behind (fun inline b l => writtenFurther_elif_iff hhead hword hblock) fun l => ?_
  have hname := lhsName?_of_isNamed hhead.2 hword
  simp [openFurther, startsWithBlock, hname, hblock, isTyped_of_isBlock hblock]

/-- An `else` on one line gets a block of its own. -/
theorem outcome_otherwiseInline (hhead : IsColon head word statement)
    (hword : word.isNamed "else" = true) :
    Outcome WrittenFurther openFurther call front (head :: rest)
      (.ok (some { call.withId 0 with
        kind := .call true, args := front ++ (word :: ofBlock [statement] :: rest) })) := by
  refine .rewritten (word :: ofBlock [statement] :: rest) ?_ ?_ fun inline b => ?_
  · have hname := lhsName?_of_isNamed hhead.2 hword
    have hblock : (ofBlock [statement]).isTyped = false := rfl
    have hbefore : openFurther (head :: rest) = 1 + openFurther rest := by
      simp [openFurther, hhead.1, hname]
    have hafter : openFurther (word :: ofBlock [statement] :: rest) = openFurther rest := by
      simp [openFurther, isTyped_of_isNamed hword, hblock]
    omega
  · simp only [forall_mem_cons]
    intro P hP ⟨h, hrest⟩
    obtain ⟨hword', hblock⟩ := hP.body hhead h
    exact ⟨hword', hblock, hrest⟩
  · simp only [writtenFurther_otherwiseInline_iff hhead hword, writtenFurther_otherwise_iff hword]
    constructor
    · rintro ⟨rfl, rfl, rfl⟩
      exact ⟨0, rfl, rfl, _, rfl, rfl, rfl⟩
    · rintro ⟨k, rfl, rfl, block, hrest, -, rfl⟩
      obtain ⟨rfl, rfl⟩ : ofBlock [statement] = block ∧ rest = [] := by simpa using hrest
      exact ⟨rfl, rfl, rfl⟩

/-- An `elif` on one line gets a block of its own. -/
theorem outcome_elifInline (hhead : IsColon head word branch) (hword : word.isNamed "elif" = true)
    (hopen : startsWithBlock rest = false) (hbranch : IsColon branch condition statement) :
    Outcome WrittenFurther openFurther call front (head :: rest)
      (.ok (some { call.withId 0 with
        kind := .call true
        args := front ++ (elifHead head word condition :: ofBlock [statement] :: rest) })) := by
  have hcolon := isColon_elifHead head word condition
  refine .rewritten (elifHead head word condition :: ofBlock [statement] :: rest) ?_ ?_ fun inline b => ?_
  · have hname := lhsName?_of_isNamed hhead.2 hword
    have hname' := lhsName?_of_isNamed hcolon.2 hword
    have hblock : (ofBlock [statement]).isTyped = false := rfl
    have hstart : startsWithBlock (ofBlock [statement] :: rest) = true := rfl
    have hbefore : openFurther (head :: rest) = 1 + openFurther rest := by
      simp [openFurther, hhead.1, hname, hopen]
    have hafter : openFurther (elifHead head word condition :: ofBlock [statement] :: rest) =
        openFurther rest := by
      simp [openFurther, hname', hblock, hstart]
    omega
  · simp only [forall_mem_cons]
    intro P hP ⟨h, hrest⟩
    obtain ⟨hhead', hblock⟩ := hP.elif hhead hbranch h
    exact ⟨hhead', hblock, hrest⟩
  · rw [writtenFurther_elifInline_iff hhead hword hopen]
    have hblock : (ofBlock [statement]).isBlock = true := rfl
    simp only [writtenFurther_elif_iff hcolon hword hblock]
    constructor
    · rintro ⟨k, condition', statement', elifs, otherwise, rfl, rfl, hbranch', hrest⟩
      obtain ⟨rfl, rfl⟩ := hbranch.unique hbranch'
      exact ⟨k, rfl, _, rfl, hrest⟩
    · rintro ⟨k, rfl, further, rfl, hrest⟩
      exact ⟨k, condition, statement, _, _, rfl, rfl, hbranch, hrest⟩

theorem outcome_refuse {fault : Fault} (h : ∀ inline b, ¬WrittenFurther inline b rest) :
    Outcome WrittenFurther openFurther call front rest (refuse fault) :=
  .refused _ (fun _ => ⟨fault, rfl⟩) h

/-- What can come of a scan that meets a colon, where `ih` tells what comes of the arguments behind a
    block that follows it. -/
theorem outcome_scan_colon (hargs : call.args = front ++ a :: rest) (htyped : a.isTyped = true)
    (ih : ∀ block rest', rest = block :: rest' → block.isBlock = true →
      Outcome WrittenFurther openFurther call (front ++ [a, block]) rest'
        (scan call (front.length + 2) rest')) :
    Outcome WrittenFurther openFurther call front (a :: rest)
      (scan call front.length (a :: rest)) := by
  have hblock : ¬a.isBlock = true := by simp [isBlock_of_isTyped htyped]
  have hword : ∀ text, ¬a.isNamed text = true := by
    intro text hnamed
    rw [isTyped_of_isNamed hnamed] at htyped
    cases htyped
  rw [scan, if_neg hblock, if_pos htyped]
  split
  · next word body hoperands =>
    have hhead : IsColon a word body := ⟨htyped, hoperands⟩
    by_cases helse : word.isNamed "else" = true
    · rw [if_pos helse, splice_eq hargs]
      exact outcome_otherwiseInline hhead helse
    by_cases helif : word.isNamed "elif" = true
    · rw [if_neg helse, if_pos helif]
      change Outcome _ _ call front _ (if startsWithBlock rest = true then _ else _)
      cases hstart : startsWithBlock rest with
      | true =>
        -- the scan goes on behind the block
        obtain _ | ⟨block, rest'⟩ := rest
        · cases hstart
        have hblock' : block.isBlock = true := hstart
        have hannounces : announces a = true := by
          simp [announces, htyped, lhsName?_of_isNamed hoperands helif]
        rw [if_pos rfl, scan_block hargs hblock', if_pos hannounces]
        exact .elif hhead helif hblock' (ih block rest' rfl hblock')
      | false =>
        rw [if_neg Bool.false_ne_true]
        split
        · next condition statement hbranch hoperands' =>
          change Outcome _ _ call front _ (.ok (some (splice call front.length _)))
          rw [splice_eq hargs]
          exact outcome_elifInline hhead helif hstart ⟨hbranch, hoperands'⟩
        · next hbranch =>
          refine outcome_refuse fun inline b h => ?_
          obtain ⟨_, _, _, _, _, _, _, hcolon, _⟩ :=
            (writtenFurther_elifInline_iff hhead helif hstart).mp h
          exact hbranch _ _ hcolon.1 hcolon.2
    · rw [if_neg helse, if_neg helif]
      refine outcome_refuse fun inline b h => ?_
      obtain hnamed | ⟨word', rhs, hhead', hword'⟩ := h.head_cases
      · exact hword _ hnamed
      · obtain ⟨rfl, -⟩ := hhead.unique hhead'
        exact hword'.elim helif helse
  · next hoperands =>
    refine .refused _ (fun hwritten => ?_) fun inline b h => ?_
    · obtain ⟨-, -, lhs, rhs, heq⟩ := (hwritten a mem_cons_self).colon htyped
      exact absurd heq (hoperands lhs rhs)
    · obtain hnamed | ⟨word, rhs, hhead, -⟩ := h.head_cases
      · exact hword _ hnamed
      · exact hoperands word rhs hhead.2

/-- The outcome of a scan that has come to a bare `else`. -/
theorem outcome_scan_else (hargs : call.args = front ++ a :: rest)
    (helse : a.isNamed "else" = true) :
    Outcome WrittenFurther openFurther call front (a :: rest)
      (scan call front.length (a :: rest)) := by
  have hblock : ¬a.isBlock = true := by simp [isBlock_of_isNamed helse]
  have htyped : ¬a.isTyped = true := by simp [isTyped_of_isNamed helse]
  rw [scan, if_neg hblock, if_neg htyped, if_pos helse]
  -- just one block may follow
  by_cases hlength : rest.length = 1
  · obtain ⟨last, rfl⟩ := length_eq_one_iff.mp hlength
    have hplace : (front.length + 2 != call.args.length) = false := by simp [hargs]
    have hlast : call.args.getLast? = some last := by simp [hargs]
    rw [hplace, if_neg Bool.false_ne_true, hlast]
    by_cases hbody : last.isBlock = true
    · have hannounces : announces a = true := by simp [announces, helse]
      have hgoal : scan call (front.length + 1) [last] = .ok none := by
        rw [scan_block hargs hbody, if_pos hannounces, scan]
      rw [hgoal]
      simp only [Option.map_some, Option.getD_some, hbody, Bool.not_true, Bool.false_eq_true,
        if_false]
      refine .settled ([], some last.args) fun inline b => ?_
      rw [writtenFurther_otherwise_iff helse]
      simp [hbody]
    · rw [if_pos (by simpa using hbody)]
      refine outcome_refuse fun inline b h => ?_
      obtain ⟨-, block, hrest, hblock', -⟩ := (writtenFurther_otherwise_iff helse).mp h
      obtain rfl : last = block := by simpa using hrest
      exact hbody hblock'
  · have hplace : (front.length + 2 != call.args.length) = true := by
      simp only [hargs, length_append, length_cons, bne_iff_ne]
      omega
    rw [if_pos hplace]
    refine outcome_refuse fun inline b h => ?_
    obtain ⟨-, block, rfl, -, -⟩ := (writtenFurther_otherwise_iff helse).mp h
    exact hlength rfl

/-- What can come of a scan that starts behind a block.  A scan passes the branches with blocks, and
    ends at the first one that is inline or misplaced. -/
theorem outcome_scan {l : List Node} (hargs : call.args = front ++ prev :: l)
    (hprev : prev.isBlock = true) :
    Outcome WrittenFurther openFurther call (front ++ [prev]) l
      (scan call (front.length + 1) l) := by
  -- a branch and its block are passed together
  induction hn : l.length using Nat.strongRecOn generalizing l front prev with
  | _ n ih =>
    obtain _ | ⟨a, rest⟩ := l
    · rw [scan]
      exact .settled ([], none) fun _ _ => writtenFurther_nil_iff
    have hargs' : call.args = (front ++ [prev]) ++ a :: rest := by simp [hargs]
    have hlength : (front ++ [prev]).length = front.length + 1 := by simp
    by_cases hblock : a.isBlock = true
    · -- nothing announces this block: what stands before it is a block
      rw [scan_block hargs hblock, announces_of_isBlock hprev]
      refine outcome_refuse fun inline b h => ?_
      rw [h.isBlock_head] at hblock
      cases hblock
    rw [← hlength]
    by_cases htyped : a.isTyped = true
    · refine outcome_scan_colon hargs' htyped fun block rest' hrest hblock' => ?_
      subst hrest
      have hshorter : rest'.length < n := by
        rw [← hn, length_cons, length_cons]
        omega
      have hargs'' : call.args = (front ++ [prev, a]) ++ block :: rest' := by simp [hargs]
      have hnext := ih rest'.length hshorter hargs'' hblock' rfl
      simpa using hnext
    by_cases helse : a.isNamed "else" = true
    · exact outcome_scan_else hargs' helse
    · rw [scan, if_neg hblock, if_neg htyped, if_neg helse]
      refine outcome_refuse fun inline b h => ?_
      obtain hnamed | ⟨word, rhs, hhead, -⟩ := h.head_cases
      · exact helse hnamed
      · exact htyped hhead.1

end Scan

section Step

variable {call first condition statement body : Node} {rest : List Node} {inline : Nat} {b : Branching}

theorem written_block_iff (hbody : body.isBlock = true) :
    Written inline b (condition :: body :: rest) ↔ ∃ further : FurtherBranches,
      b = ⟨condition, body.args, further.1, further.2⟩ ∧ WrittenFurther inline further rest := by
  constructor
  · intro h
    cases h with
    | block _ hrest => exact ⟨_, rfl, hrest⟩
    | inline _ _ hrest =>
      rw [hrest.isBlock_head] at hbody
      cases hbody
  · rintro ⟨further, rfl, hrest⟩
    exact .block hbody hrest

theorem written_inline_iff (hopen : startsWithBlock rest = false) :
    Written inline b (first :: rest) ↔ ∃ k condition statement elifs otherwise,
      inline = k + 1 ∧ b = ⟨condition, [statement], elifs, otherwise⟩ ∧
        IsColon first condition statement ∧ statement.isAssign = false ∧
          WrittenFurther k (elifs, otherwise) rest := by
  constructor
  · intro h
    cases h with
    | block hbody _ =>
      rw [startsWithBlock, head?_cons, Option.map_some, Option.getD_some, hbody] at hopen
      cases hopen
    | inline hfirst hassign hrest => exact ⟨_, _, _, _, _, rfl, rfl, hfirst, hassign, hrest⟩
  · rintro ⟨k, condition, statement, elifs, otherwise, rfl, rfl, hfirst, hassign, hrest⟩
    exact .inline hfirst hassign hrest

/-- A first branch on one line gets a block of its own. -/
theorem outcome_inline (hfirst : IsColon first condition statement)
    (hassign : statement.isAssign = false) (hopen : startsWithBlock rest = false) :
    Outcome Written openBranches call [] (first :: rest)
      (.ok (some { call.withId 0 with
        kind := .call true, args := condition :: ofBlock [statement] :: rest })) := by
  have hblock : (ofBlock [statement]).isBlock = true := rfl
  refine .rewritten (condition :: ofBlock [statement] :: rest) ?_ ?_ fun inline b => ?_
  · have hbefore : openBranches (first :: rest) = 1 + openFurther rest := by
      simp [openBranches, hopen]
    have hafter : openBranches (condition :: ofBlock [statement] :: rest) =
        openFurther rest := by
      simp [openBranches, startsWithBlock, hblock]
    omega
  · simp only [forall_mem_cons]
    intro P hP ⟨h, hrest⟩
    obtain ⟨hcondition, hblock⟩ := hP.body hfirst h
    exact ⟨hcondition, hblock, hrest⟩
  · simp only [written_inline_iff hopen, written_block_iff hblock]
    constructor
    · rintro ⟨k, c, s, elifs, otherwise, rfl, rfl, hfirst', -, hrest⟩
      obtain ⟨rfl, rfl⟩ := hfirst.unique hfirst'
      exact ⟨k, rfl, _, rfl, hrest⟩
    · rintro ⟨k, rfl, further, rfl, hrest⟩
      exact ⟨k, _, _, _, _, rfl, rfl, hfirst, hassign, hrest⟩

/-- Every step settles the branches, rewrites one of them, or refuses them. -/
theorem outcome_step (call : Node) :
    Outcome Written openBranches call [] call.args (Branch.step call) := by
  rw [Branch.step]
  split
  · next hargs =>
    rw [hargs]
    exact .refused _ (fun _ => ⟨_, rfl⟩) fun inline b h => by cases h
  · next first rest hargs =>
    have hargs' : call.args = [] ++ first :: rest := hargs
    rw [hargs]
    change Outcome _ _ call [] _ (if startsWithBlock rest = true then _ else _)
    -- either the first body is a block already, or it follows a colon
    cases hstart : startsWithBlock rest with
    | true =>
      obtain _ | ⟨body, rest'⟩ := rest
      · cases hstart
      have hbody : body.isBlock = true := hstart
      refine .behind (outcome_scan (show call.args = [first] ++ _ from hargs) hbody)
        (fun inline b l => written_block_iff hbody) fun l => ?_
      simp [openBranches, startsWithBlock, hbody]
    | false =>
      rw [if_neg Bool.false_ne_true]
      split
      · next condition statement htyped hoperands =>
        have hfirst : IsColon first condition statement := ⟨htyped, hoperands⟩
        cases hassign : statement.isAssign with
        | true =>
          refine .refused _ (fun _ => ⟨_, rfl⟩) fun inline b h => ?_
          obtain ⟨k, c, s, _, _, -, -, hfirst', hassign', -⟩ := (written_inline_iff hstart).mp h
          rw [(hfirst.unique hfirst').2, hassign'] at hassign
          cases hassign
        | false =>
          have hsplice := splice_eq hargs' [condition, ofBlock [statement]]
          rw [if_neg Bool.false_ne_true]
          exact hsplice ▸ outcome_inline hfirst hassign hstart
      · next hfirst =>
        refine .refused _ (fun _ => ⟨_, rfl⟩) fun inline b h => ?_
        obtain ⟨k, c, s, _, _, -, -, hfirst', -, -⟩ := (written_inline_iff hstart).mp h
        exact hfirst c s hfirst'.1 hfirst'.2

end Step

/-! ### A whole run -/

/-- What becomes of an `if` whose arguments say something: an `if` that says the same with blocks
    only, and that no step changes. -/
structure Settled (call m : Node) (b : Branching) : Prop where
  step_eq : Branch.step m = .ok none
  written : Written 0 b m.args
  func_eq : m.func = call.func
  isCall : m.isCall = call.isCall
  kept : ∀ P, Kept P → (∀ a ∈ call.args, P a) → ∀ a ∈ m.args, P a

/-- A run that may take a step for every open branch ends in one of two ways: the arguments say one
    thing, and then the result says it with blocks only; or they say nothing and are refused. -/
theorem normalizeIf_cases {fuel : Nat} {call : Node} (hcall : call.isCall = true)
    (hfuel : openBranches call.args < fuel) :
    (∃ m k b, normalizeIf fuel call = .ok m ∧ Settled call m b ∧
      ∀ inline b', Written inline b' call.args ↔ inline = k ∧ b' = b) ∨
    (∃ e, normalizeIf fuel call = .error e ∧
      ((∀ a ∈ call.args, AsWritten a) → ∃ fault, e = .analysis fault none) ∧
        ∀ inline b, ¬Written inline b call.args) := by
  induction fuel generalizing call with
  | zero => omega
  | succ fuel ih =>
    have houtcome := outcome_step call
    rw [normalizeIf]
    generalize hstep : Branch.step call = r at houtcome
    cases houtcome with
    | settled b h =>
      refine .inl ⟨call, 0, b, rfl, ?_, h⟩
      exact ⟨hstep, (h 0 b).mpr ⟨rfl, rfl⟩, rfl, rfl, fun P _ h => h⟩
    | rewritten new hcount hkept h =>
      -- the next call has one open branch less
      set next : Node := { call.withId 0 with kind := .call true, args := [] ++ new }
      have hcall' : next.isCall = true := rfl
      have hfuel' : openBranches next.args < fuel := by
        change openBranches new < fuel
        omega
      rcases ih hcall' hfuel' with ⟨m, k, b, hrun, hm, hiff⟩ | ⟨e, hrun, hfault, hnone⟩
      · refine .inl ⟨m, k + 1, b, hrun, ?_, fun inline b' => ?_⟩
        · exact ⟨hm.step_eq, hm.written, hm.func_eq, hm.isCall.trans hcall.symm,
            fun P hP hargs => hm.kept P hP (hkept P hP hargs)⟩
        · rw [h]
          constructor
          · rintro ⟨k', rfl, hnew⟩
            obtain ⟨rfl, rfl⟩ := (hiff k' b').mp hnew
            exact ⟨rfl, rfl⟩
          · rintro ⟨rfl, rfl⟩
            exact ⟨k, rfl, (hiff k b').mpr ⟨rfl, rfl⟩⟩
      · refine .inr ⟨e, hrun, fun hargs => hfault (hkept _ kept_asWritten hargs),
          fun inline b hb => ?_⟩
        obtain ⟨k, -, hnew⟩ := (h inline b).mp hb
        exact hnone k b hnew
    | refused e hfault h => exact .inr ⟨e, rfl, hfault, h⟩

theorem expandBody_if {call : Node} (hif : call.isCallOf "if" = true) :
    expandBody call = normalizeIf (call.args.length + 1) call := by
  obtain ⟨info, kind, func, args, type⟩ := call
  cases kind with
  | call oneLiner =>
    have hname : func.bind Node.name? = some "if" := by
      simpa [isCallOf, isCall, funcName?] using hif
    obtain _ | f := func
    · cases hname
    have hfunc : f.name? = some "if" := hname
    have hindex : f.isIndex = false := by
      rw [isIndex, kind_of_isNamed (beq_iff_eq.mpr hfunc)]
      rfl
    simp [expandBody, clauseForm, isCall, isCallOf, funcName?, isLambda, hfunc,
      hindex]
  | _ => cases hif

/-! ### The arguments of a settled `if` -/

/-- The arguments that write further branches with blocks. -/
def furtherArguments (b : FurtherBranches) : List Node :=
  (b.1.flatMap fun (condition, body) =>
    [Node.ofBinary .typed ":" (Node.ident "elif") condition, Node.ofBlock body]) ++
  (b.2.map fun body => [Node.ident "else", Node.ofBlock body]).getD []

def Branching.arguments (b : Branching) : List Node :=
  b.condition :: Node.ofBlock b.body :: furtherArguments (b.elifs, b.otherwise)

section Alike

variable {n : Node} {text : String}

/-- Two trees that differ in labels and offsets at most. -/
abbrev Same (a b : Node) : Prop := a.alike (fun k l => k == l) b = true

theorem same_refl (n : Node) : Same n n := alike_refl (fun k => beq_self_eq_true k) n

theorem AsWritten.same_ident (h : AsWritten n) (hname : n.isNamed text = true) :
    Same n (Node.ident text) := by
  have hkind := kind_of_isNamed hname
  cases h with
  | intro hparts _ _ _ _ =>
    rw [hkind] at hparts
    simp only [Kind.hasParts, Bool.and_eq_true, Bool.not_eq_true', Option.isSome_eq_false_iff,
      Option.isNone_iff_eq_none, beq_iff_eq, length_eq_zero_iff] at hparts
    obtain ⟨⟨-, hfunc⟩, hargs⟩ := hparts
    rw [Same, alike_iff, hkind, hfunc, hargs]
    exact ⟨beq_self_eq_true _, rfl, rfl⟩

theorem AsWritten.same_ofBlock (h : AsWritten n) (hblock : n.isBlock = true) :
    Same n (Node.ofBlock n.args) := by
  cases h with
  | intro hparts _ hmodule _ _ =>
    have hkind : n.kind = .block := by simpa [isBlock, hmodule] using hblock
    have hfunc : n.func = none := by simpa [hkind, Kind.hasParts] using hparts
    rw [Same, alike_iff, hkind, hfunc, alikeList_iff, alikeList_iff]
    exact ⟨rfl, .nil, forall₂_same.mpr fun a _ => same_refl a⟩

theorem AsWritten.same_colon {word condition : Node} (h : AsWritten n)
    (hcolon : IsColon n word condition) (hname : word.isNamed text = true) :
    Same n (ofBinary .typed ":" (Node.ident text) condition) := by
  obtain ⟨hkind, hfunc, -⟩ := h.colon hcolon.1
  have hword := (h.operands hcolon).1.same_ident hname
  rw [Same, alike_iff, hkind, hfunc, hcolon.2, alikeList_iff, alikeList_iff]
  exact ⟨beq_self_eq_true _, .nil, .cons hword (.cons (same_refl condition) .nil)⟩

/-- What further branches say fixes their arguments, once all of them have blocks. -/
theorem WrittenFurther.same_arguments {inline : Nat} {b : FurtherBranches} {args : List Node}
    (h : WrittenFurther inline b args) (hblocks : inline = 0) (hargs : ∀ a ∈ args, AsWritten a) :
    List.Forall₂ Same args (furtherArguments b) := by
  induction h with
  | nil => exact .nil
  | elif hhead hword hblock _ ih =>
    obtain ⟨hhead', hargs⟩ := forall_mem_cons.mp hargs
    obtain ⟨hblock', hargs⟩ := forall_mem_cons.mp hargs
    exact .cons (hhead'.same_colon hhead hword) (.cons (hblock'.same_ofBlock hblock)
      (ih hblocks hargs))
  | elifInline _ _ _ _ => omega
  | otherwise hword hblock =>
    obtain ⟨hword', hargs⟩ := forall_mem_cons.mp hargs
    obtain ⟨hblock', -⟩ := forall_mem_cons.mp hargs
    exact .cons (hword'.same_ident hword) (.cons (hblock'.same_ofBlock hblock) .nil)
  | otherwiseInline _ _ => omega

/-- What an `if` says fixes its arguments, once all branches have blocks. -/
theorem Written.same_arguments {b : Branching} {args : List Node} (h : Written 0 b args)
    (hargs : ∀ a ∈ args, AsWritten a) : List.Forall₂ Same args b.arguments := by
  cases h with
  | block hbody hrest =>
    obtain ⟨-, hargs⟩ := forall_mem_cons.mp hargs
    obtain ⟨hbody', hargs⟩ := forall_mem_cons.mp hargs
    exact .cons (same_refl _) (.cons (hbody'.same_ofBlock hbody)
      (hrest.same_arguments rfl hargs))

end Alike

end Cppward.Analysis
