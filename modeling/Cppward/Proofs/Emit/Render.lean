import Cppward.Proofs.Emit.Inversion
import Cppward.Proofs.Target.Text

namespace Cppward

open Analysis Emit Target List
open Option (isSome_map map_eq_some_iff bind_eq_some_iff)

/-!
# What the code of an expression contributes

The code of a tree, wherever an operand may stand, contributes operands and operators.  They are as
many as in the tree (`Fits.leaves`); whether they are grouped like the tree depends on whether what
binds to the last operand binds to the whole (`Fits.reading_eq_iff`).

* `Fits`, `Renders` — the invariant,
* `renders_name`, `renders_unary`, `renders_binary`, `renders_arrow`, `renders_index`,
  `renders_plainCall`, `renders_call` — each kind of expression keeps it up.
-/

variable {f f' : Option Flat} {arg lhs rhs func : Node} {op left right target : String}

namespace Emit

open Node

variable {cx : Context} {g g' : Generator} {n : Node} {k : Nat} {code : String}

/-! ### What the code contributes -/

/-- The operands that the code of a tree contributes.  They have the leaves of the tree, they make its
    shape exactly if nothing bare is called or selected from, and then they are a single operand
    exactly if the code is not bare. -/
structure Fits (nested : Bool) (n : Node) (f : Flat) : Prop where
  leaves : f.reading.leaves = n.shape.leaves
  reading_eq_iff : f.reading = n.shape ↔ ∀ m ∈ n.operands, m.isTight = true
  isClosed_iff : f.reading = n.shape → (f.IsClosed ↔ n.isBare nested = false)
  call_last : ∀ args, Target.call f.last args = .applied f.last args

/-- What the code of a tree that can be read contributes: nothing exactly if an operand in it is
    written as a pointer. -/
structure Renders (p : Program) (cx : Context) (n : Node) (code : String) (f : Option Flat) :
    Prop where
  spells : Spells code f
  isSome_iff : f.isSome = true ↔ ∀ m ∈ n.operands, isPointer p cx m = false
  fits : ∀ f' ∈ f, Fits (inParens p n) n f'

variable {p : Program}

theorem isPointer_eq_false (hname : n.name? = none) : isPointer p cx n = false := by
  simp [isPointer, isPlainText, hname]

/-- A single operand fits if it makes the shape of the tree where it should. -/
theorem fits_single {nested : Bool} {r : Reading} (hbare : n.isBare nested = false)
    (hleaves : r.leaves = n.shape.leaves)
    (hiff : r = n.shape ↔ ∀ m ∈ n.operands, m.isTight = true)
    (hcall : ∀ args, Target.call r args = .applied r args) : Fits nested n (.single r) :=
  ⟨hleaves, hiff, fun _ => ⟨fun _ => hbare, fun _ => ⟨rfl, rfl⟩⟩, hcall⟩

theorem Fits.group {f : Flat} (h : Fits false n f) (hbare : n.isBare true = false) :
    Fits true n (.single f.reading) :=
  fits_single hbare h.leaves h.reading_eq_iff (Flat.call_reading h.call_last)

/-- Under an operator, no binary operator is left without parentheses. -/
theorem Fits.before_eq_nil {f : Flat} (h : Fits true n f) (hshape : f.reading = n.shape) :
    f.before = [] := by
  by_contra hne
  obtain ⟨op, lhs, rhs, hgroup⟩ := exists_infixed_of_group hne (signed f.signs f.last)
  have hinfixed : n.shape = .infixed op lhs rhs := hshape.symm.trans hgroup
  have hclosed := (h.isClosed_iff hshape).mpr ?_
  · exact hne hclosed.1
  · -- a shape that is a binary operator belongs to a binary operator
    rw [shape_eq] at hinfixed
    unfold isBare
    split at hinfixed <;> simp_all

/-! ### Leaves -/

theorem isNumeral_of_isIdentifier {s : String} (hs : isIdentifier s = true) : isNumeral s = true := by
  simp only [isIdentifier, isNumeral, Bool.and_eq_true, all_eq_true, Bool.or_eq_true] at hs ⊢
  exact ⟨hs.1.1.1, fun c hc => .inl (hs.1.1.2 c hc)⟩

theorem isWord_of_isNumeral {s : String} (hs : isNumeral s = true) :
    s.toList ≠ [] ∧ ∀ c ∈ s.toList, isWordChar c = true := by
  simp only [isNumeral, Bool.and_eq_true, all_eq_true, bne_iff_ne] at hs
  refine ⟨fun hnil => hs.1 (String.toList_eq_nil_iff.mp hnil), fun c hc => ?_⟩
  have hchar := hs.2 c hc
  simp only [Grammar.isNameChar, Bool.or_eq_true] at hchar
  simp only [isWordChar, Bool.or_eq_true]
  tauto

/-- The other spellings of a name are words, and they are read as the name. -/
theorem isWord_of_mem_spellings {s w : String} (hs : isIdentifier s = true) (hw : w ∈ spellings s) :
    (w.toList ≠ [] ∧ ∀ c ∈ w.toList, isWordChar c = true) ∧ canonical w = canonical s := by
  -- The fixed spellings are checked by evaluation.
  have hfixed : ∀ (t : String) (ws : List String),
      (ws.all fun w => !w.toList.isEmpty && w.toList.all isWordChar && canonical w == canonical t) = true →
        w ∈ ws → (w.toList ≠ [] ∧ ∀ c ∈ w.toList, isWordChar c = true) ∧ canonical w = canonical t := by
    intro t ws hall hmem
    have hchecks := all_eq_true.mp hall w hmem
    simp only [Bool.and_eq_true, Bool.not_eq_true', isEmpty_eq_false_iff, all_eq_true,
      beq_iff_eq] at hchecks
    exact hchecks
  unfold spellings at hw
  split at hw
  · exact hfixed _ _ (by decide) hw
  · exact hfixed _ _ (by decide) hw
  · exact hfixed _ _ (by decide) hw
  · exact hfixed _ _ (by decide) hw
  · obtain rfl := mem_singleton.mp hw
    exact ⟨isWord_of_isNumeral (isNumeral_of_isIdentifier hs), rfl⟩

theorem call_canonical {s : String} (hs : isNumeral s = true) (args : List Reading) :
    Target.call (.name (canonical s)) args = .applied (.name (canonical s)) args := by
  have hmove : canonical s ≠ "std::move" ∧ canonical s ≠ "ceto::bounds_check" := by
    unfold canonical
    split
    · decide
    · decide
    · decide
    · decide
    · constructor <;> (rintro rfl; exact absurd hs (by decide))
  unfold Target.call
  split <;> simp_all

theorem renders_leaf {s : String} (hspells : Spells code (some (.single (.name (canonical s)))))
    (hs : isNumeral s = true) (hleaf : n.kind.leafText? = some s) (hparts : n.operandParts = [])
    (hpointer : isPointer p cx n = false) :
    Renders p cx n code (some (.single (.name (canonical s)))) := by
  have hshape := shape_leaf hleaf
  have hkind : n.isTight = true ∧ n.isBare (inParens p n) = false := by
    unfold isTight isBare
    cases hk : n.kind <;> rw [hk] at hleaf <;> cases hleaf <;> exact ⟨rfl, rfl⟩
  refine ⟨hspells, ?_, ?_⟩
  · rw [forall_mem_operands, hparts]
    simp [hpointer]
  · rintro f' ⟨⟩
    refine fits_single hkind.2 (by rw [hshape]) ?_ (call_canonical hs)
    rw [forall_mem_operands, hparts]
    simp [hshape, hkind.1]

/-- The pointer to a class spoils every expression. -/
theorem spells_pointerStart (s : String) (isUnique : Bool) :
    Spells (pointerStart isUnique ++ "const " ++ s ++ ">>") none := by
  have hwords : ∀ w ∈ ["ceto::propagate_const", "std::unique_ptr", "std::shared_ptr"],
      w.toList ≠ [] ∧ w.toList.all isWordChar = true := by decide
  have hpointer := hwords (if isUnique then "std::unique_ptr" else "std::shared_ptr")
    (by cases isUnique <;> decide)
  have houter := hwords "ceto::propagate_const" (by decide)
  have hrest : StartsOperand ("const " ++ s ++ ">>").toList := ⟨'c', by simp, .inl (by decide)⟩
  have hcode : pointerStart isUnique ++ "const " ++ s ++ ">>" =
      pointerStart isUnique ++ ("const " ++ s ++ ">>") := by simp only [String.append_assoc]
  rw [hcode]
  exact spells_pointer houter.1 (all_eq_true.mp houter.2) hpointer.1
    (all_eq_true.mp hpointer.2) hrest

/-- A name is read as itself, or is written as a pointer. -/
theorem renders_name {s : String} (hkind : n.kind = .name s) (hs : isIdentifier s = true)
    (hparts : n.operandParts = []) (h : emitName n s cx g = .ok (code, g')) :
    ∃ f, Renders g.program cx n code f := by
  have hleaf : n.kind.leafText? = some s := by rw [hkind]; rfl
  have hnum := isNumeral_of_isIdentifier hs
  obtain ⟨-, ⟨hpointer, isUnique, rfl⟩ | ⟨hpointer, hspelled | ⟨rfl, hspelled, -⟩⟩⟩ :=
    emitName_eq_ok hkind (isIdentifier_ne_dots hs) h
  · refine ⟨none, spells_pointerStart s isUnique, ?_, by simp⟩
    rw [forall_mem_operands]
    simp [hpointer]
  · obtain ⟨⟨hne, hword⟩, hcanonical⟩ := isWord_of_mem_spellings hs hspelled
    have hspells := Spells.word hne hword
    rw [show canonical code = canonical s from hcanonical] at hspells
    exact ⟨_, renders_leaf hspells hnum hleaf hparts hpointer⟩
  · obtain ⟨hne, hword⟩ := isWord_of_isNumeral hnum
    have hmove : Spells "std::move" (some (.single (.name "std::move"))) :=
      Spells.word (by decide) (all_eq_true.mp (by decide))
    have hspells := hmove.call (.cons (Spells.word hne hword) .nil) true .round
    have hcode : "std::move(" ++ s ++ ")" =
        "std::move" ++ ("(" ++ (separatorText true).intercalate [s] ++ ")") := by
      rw [String.intercalate_singleton, show "std::move(" = "std::move" ++ "(" from rfl]
      simp only [String.append_assoc]
    rw [hcode]
    exact ⟨_, renders_leaf hspells hnum hleaf hparts hpointer⟩

/-! ### Operators -/

theorem forall_mem_operands_iff {P : Node → Prop} {parts : List Node} (hn : P n)
    (hparts : n.operandParts = parts) :
    (∀ m ∈ n.operands, P m) ↔ ∀ part ∈ parts, ∀ m ∈ part.operands, P m := by
  rw [forall_mem_operands, hparts]
  exact and_iff_right hn

/-- A prefix operator before an operand that is in parentheses if it has to be. -/
theorem Fits.sign {f : Flat} (h : Fits true arg f)
    (hkind : n.kind = .unary op) (hargs : n.args = [arg]) (hparts : n.operandParts = [arg]) :
    (f.sign (signText op)).reading.leaves = n.shape.leaves ∧
      ((f.sign (signText op)).reading = n.shape ↔ ∀ m ∈ n.operands, m.isTight = true) := by
  have htight : n.isTight = true := by simp [isTight, hkind]
  rw [shape_unary hkind hargs, Flat.leaves_sign, Flat.reading_sign_eq_iff,
    forall_mem_operands_iff (P := fun m => m.isTight = true) htight hparts]
  simp only [mem_singleton, forall_eq, ← h.reading_eq_iff]
  exact ⟨h.leaves, fun hr => hr.2, fun hr => ⟨h.before_eq_nil hr, hr⟩⟩

/-- A prefix operator renders its operand, which has parentheses if it needs them. -/
theorem renders_unary {argCode : String}
    (hkind : n.kind = .unary op) (hop : op ∈ prefixOperators) (hargs : n.args = [arg])
    (hparts : n.operandParts = [arg]) (hnested : inParens p arg = true)
    (h : Renders p cx arg argCode f) :
    ∃ f, Renders p cx n (if op = "not" then "!" ++ argCode else parens (op ++ argCode)) f := by
  have hsigns : ∀ op ∈ prefixOperators,
      (signText op).toList ∈ Target.operators ∧ signText op ∈ signOperators := by decide
  have hsign := h.spells.sign (hsigns op hop).1 (hsigns op hop).2
  have hpointer : isPointer p cx n = false := isPointer_eq_false (by simp [name?, hkind])
  have hsome : f.isSome = true ↔ ∀ m ∈ n.operands, isPointer p cx m = false := by
    rw [forall_mem_operands_iff (P := fun m => isPointer p cx m = false) hpointer hparts, h.isSome_iff]
    simp
  have hfits : ∀ f' ∈ f, Fits true arg f' := by
    rw [← hnested]
    exact h.fits
  split
  · -- A negation has no parentheses: its sign goes to the first operand of the argument.
    rename_i hnot
    subst hnot
    refine ⟨_, ⟨⟨'!', by simp, by simp⟩, hsign⟩, by rw [isSome_map, hsome], ?_⟩
    intro f' hf'
    obtain ⟨f, hf, rfl⟩ := map_eq_some_iff.mp hf'
    obtain ⟨hleaves, hiff⟩ := (hfits f hf).sign hkind hargs hparts
    refine ⟨hleaves, hiff, fun _ => ?_, ?_⟩
    · simp [Flat.not_isClosed_sign, isBare, hkind]
    · rw [Flat.last_sign]
      exact (hfits f hf).call_last
  · rename_i hnot
    have htext : signText op = op := if_neg hnot
    rw [htext] at hsign
    refine ⟨_, hsign.group, by simp [hsome], ?_⟩
    intro f' hf'
    simp only [Option.map_map, Option.mem_def, map_eq_some_iff, Function.comp_apply] at hf'
    obtain ⟨f, hf, rfl⟩ := hf'
    obtain ⟨hleaves, hiff⟩ := (hfits f hf).sign hkind hargs hparts
    rw [htext] at hleaves hiff
    refine fits_single (by simp [isBare, hkind, hnot]) hleaves hiff (Flat.call_reading ?_)
    rw [Flat.last_sign]
    exact (hfits f hf).call_last

/-- The code of an operator is put in parentheses where the operator around it wants that. -/
theorem renders_nested (hspells : Spells code f)
    (hsome : f.isSome = true ↔ ∀ m ∈ n.operands, isPointer p cx m = false)
    (hfits : ∀ f' ∈ f, Fits false n f') (hbare : n.isBare true = false) :
    ∃ f, Renders p cx n (if inParens p n then parens code else code) f := by
  split
  · rename_i hnested
    refine ⟨_, hspells.contributes.group, by rw [isSome_map, hsome], ?_⟩
    intro f' hf'
    obtain ⟨f, hf, rfl⟩ := map_eq_some_iff.mp hf'
    rw [hnested]
    exact (hfits f hf).group hbare
  · rename_i hnested
    rw [Bool.not_eq_true] at hnested
    exact ⟨f, hspells, hsome, by rw [hnested]; exact hfits⟩

/-- A binary operator renders its operands on both sides. -/
theorem renders_binary {cls : Binary}
    (hkind : n.kind = .binary cls op) (hcls : cls = .plain ∨ cls = .bitOr ∨ cls = .equals)
    (hop : op ∈ binaryOperators) (hargs : n.args = [lhs, rhs]) (hparts : n.operandParts = [lhs, rhs])
    (hreadable : n.isReadable = true) (hlnested : inParens p lhs = true)
    (hrnested : inParens p rhs = true) (hl : Renders p cx lhs left f)
    (hr : Renders p cx rhs right f') :
    ∃ f, Renders p cx n (if inParens p n then parens (left ++ " " ++ operatorText op ++ " " ++ right)
      else left ++ " " ++ operatorText op ++ " " ++ right) f := by
  have hoperators : ∀ op ∈ binaryOperators, op ≠ "in" → (operatorText op).toList ∈ Target.operators := by
    decide
  have harrow : cls ≠ .arrow := by rcases hcls with rfl | rfl | rfl <;> simp
  have hin : op ≠ "in" := by
    rcases hcls with rfl | rfl | rfl <;> simpa [isReadable, hkind] using hreadable
  have hspells := hl.spells.joined hr.spells (hoperators op hop hin)
    ((isSome_lookup_operatorText hop).mpr hin)
  have hpointer : isPointer p cx n = false := isPointer_eq_false (by simp [name?, hkind])
  have htight : n.isTight = true := by rcases hcls with rfl | rfl | rfl <;> simp [isTight, hkind]
  refine renders_nested hspells ?_ ?_ (by rcases hcls with rfl | rfl | rfl <;> simp [isBare, hkind])
  · rw [forall_mem_operands_iff (P := fun m => isPointer p cx m = false) hpointer hparts]
    simp only [mem_cons, not_mem_nil, or_false, forall_eq_or_imp, forall_eq, ← hl.isSome_iff,
      ← hr.isSome_iff]
    cases f <;> cases f' <;> simp
  · intro f'' hf''
    obtain ⟨a, ha, hf''⟩ := bind_eq_some_iff.mp hf''
    obtain ⟨b, hb, rfl⟩ := map_eq_some_iff.mp hf''
    have hfa := hl.fits a ha
    have hfb := hr.fits b hb
    rw [hlnested] at hfa
    rw [hrnested] at hfb
    have hshape := shape_binary hkind harrow hargs
    refine ⟨?_, ?_, fun _ => ?_, hfb.call_last⟩
    · rw [hshape, Flat.leaves_join, hfa.leaves, hfb.leaves]
      rfl
    · -- neither operand has an open operator, since both were to get parentheses
      rw [hshape, Flat.reading_join_eq_iff hfa.leaves hfa.before_eq_nil hfb.before_eq_nil,
        forall_mem_operands_iff (P := fun m => m.isTight = true) htight hparts]
      simp only [mem_cons, not_mem_nil, or_false, forall_eq_or_imp, forall_eq,
        ← hfa.reading_eq_iff, ← hfb.reading_eq_iff]
    · have hbare : n.isBare false = true := by
        rcases hcls with rfl | rfl | rfl <;> simp [isBare, hkind]
      simp [Flat.not_isClosed_join, hbare]

/-! ### Members and calls -/

/-- What binds to the last operand binds to the whole tree exactly if the tree is tight and its code
    not bare. -/
theorem Fits.isClosed_and_last_iff {f : Flat} (h : Fits false n f) :
    (f.IsClosed ∧ f.last = n.shape) ↔
      n.isBare false = false ∧ ∀ m ∈ n.operands, m.isTight = true := by
  rw [← h.reading_eq_iff]
  constructor
  · rintro ⟨hclosed, hlast⟩
    have hreading := hclosed.reading.trans hlast
    exact ⟨(h.isClosed_iff hreading).mp hclosed, hreading⟩
  · rintro ⟨hbare, hreading⟩
    have hclosed := (h.isClosed_iff hreading).mpr hbare
    exact ⟨hclosed, hclosed.reading.symm.trans hreading⟩

/-- What the member that is selected by an arrow is written as. -/
inductive Selects (p : Program) (cx : Context) (n : Node) (code : String) : Prop
  | pointer (hpointer : isPointer p cx n = true) (hspells : Spells code none)
  | word (hpointer : isPointer p cx n = false) (hne : code.toList ≠ [])
      (hword : ∀ c ∈ code.toList, isWordChar c = true) (hshape : n.shape = .name (canonical code))

/-- A leaf is selected by its text; it is never moved from there. -/
theorem selects_of_ok {holder : Node} (hexpr : n.isExpression = true) (hheld : g.program.Holds n)
    (hleaf : n.kind.leafText?.isSome = true) (hholder : g.program.parent? n = some holder)
    (harrow : holder.isArrow = true) (h : (emitter (k + 1)).node n cx g = .ok (code, g')) :
    Selects g.program cx n code := by
  cases emits_of_ok hexpr hheld.current h with
  | name s hkind hs hparts h =>
    have hleaf : n.kind.leafText? = some s := by rw [hkind]; rfl
    obtain ⟨-, ⟨hpointer, isUnique, rfl⟩ | ⟨hpointer, hspelled | ⟨-, -, hmovable⟩⟩⟩ :=
      emitName_eq_ok hkind (isIdentifier_ne_dots hs) h
    · exact .pointer hpointer (spells_pointerStart s isUnique)
    · obtain ⟨⟨hne, hword⟩, hcanonical⟩ := isWord_of_mem_spellings hs hspelled
      exact .word hpointer hne hword (by rw [hcanonical, shape_leaf hleaf])
    · simp [Program.isMovable, hholder, harrow] at hmovable
  | number hleaf hs hname hparts hstate =>
    obtain ⟨hne, hword⟩ := isWord_of_isNumeral hs
    exact .word (isPointer_eq_false hname) hne hword (shape_leaf hleaf)
  | unary op arg argCode hkind => simp [hkind, Kind.leafText?] at hleaf
  | arrow lhs rhs left right g₁ hkind => simp [hkind, Kind.leafText?] at hleaf
  | binary cls op lhs rhs left right g₁ hkind => simp [hkind, Kind.leafText?] at hleaf
  | index func arg target place g₁ hkind => simp [hkind, Kind.leafText?] at hleaf
  | plainCall func s codes hkind =>
    unfold isCall at hkind
    split at hkind <;> simp_all [Kind.leafText?]
  | call func target codes g₁ hkind =>
    unfold isCall at hkind
    split at hkind <;> simp_all [Kind.leafText?]

/-- An arrow renders its target and the name that it selects. -/
theorem renders_arrow (hkind : n.kind = .binary .arrow "->") (hargs : n.args = [lhs, rhs])
    (hparts : n.operandParts = [lhs, rhs]) (hlnested : inParens p lhs = false)
    (hl : Renders p cx lhs left f) (hr : Selects p cx rhs right)
    (hrparts : rhs.operandParts = []) (hrtight : rhs.isTight = true) :
    ∃ f, Renders p cx n (if inParens p n then parens (left ++ " " ++ "->" ++ " " ++ right)
      else left ++ " " ++ "->" ++ " " ++ right) f := by
  have hpointer : isPointer p cx n = false := isPointer_eq_false (by simp [name?, hkind])
  have hpointers : (∀ m ∈ n.operands, isPointer p cx m = false) ↔
      f.isSome = true ∧ isPointer p cx rhs = false := by
    rw [forall_mem_operands_iff (P := fun m => isPointer p cx m = false) hpointer hparts, hl.isSome_iff]
    simp only [mem_cons, not_mem_nil, or_false, forall_eq_or_imp, forall_eq]
    rw [forall_mem_operands (n := rhs), hrparts]
    simp
  have hbare : n.isBare true = false := by simp [isBare, hkind]
  cases hr with
  | pointer hrpointer hspells =>
    -- A type after the arrow: the text cannot be read.
    refine renders_nested (hl.spells.member_none hspells) ?_ (by simp) hbare
    rw [hpointers, hrpointer]
    simp
  | word hrpointer hne hword hrshape =>
    refine renders_nested (hl.spells.member hne hword) ?_ ?_ hbare
    · rw [hpointers, hrpointer]
      simp
    · intro f' hf'
      obtain ⟨a, ha, rfl⟩ := map_eq_some_iff.mp hf'
      have hfa := hl.fits a ha
      rw [hlnested] at hfa
      have hshape : n.shape = .member lhs.shape (.name (canonical right)) := by
        rw [shape_arrow hkind hargs, hrshape]
      refine ⟨?_, ?_, fun hreading => ?_, fun _ => rfl⟩
      · -- The member is selected from the last operand, so the number of leaves is the same
        -- whatever is grouped on the left.
        have hleaves := hfa.leaves
        rw [Flat.leaves_reading] at hleaves ⊢
        rw [hshape]
        simp only [Reading.leaves] at hleaves ⊢
        omega
      · rw [hshape, Flat.reading_eq_iff rfl, forall_mem_operands, hparts]
        simp only [mem_cons, not_mem_nil, or_false, forall_eq_or_imp, forall_eq]
        rw [forall_mem_operands (n := rhs), hrparts]
        have hiff := hfa.isClosed_and_last_iff
        have htight : n.isTight = true ↔ lhs.isBare false = false := by
          simp [isTight, hkind, lhs?, hargs]
        rw [htight]
        simp only [Flat.IsClosed, Reading.member.injEq, and_true, hrtight, not_mem_nil,
          false_imp_iff, implies_true] at hiff ⊢
        exact hiff
      · rw [hshape] at hreading
        have hclosed := ((Flat.reading_eq_iff rfl).mp hreading).1
        simp [hclosed, isBare, hkind]

/-- Arguments that are rendered one by one are rendered together. -/
theorem exists_renders_args {as : List Node} {codes : List String}
    (h : List.Forall₂ (fun a code => ∃ f, Renders p cx a code f) as codes) :
    ∃ fs, List.Forall₂ Spells codes fs ∧
      ((fs.mapM fun f => f).isSome = true ↔
        ∀ a ∈ as, ∀ m ∈ a.operands, isPointer p cx m = false) ∧
      ∀ fs' ∈ (fs.mapM fun f => f),
        leavesList (fs'.map Flat.reading) = leavesList (as.map shape) ∧
          (fs'.map Flat.reading = as.map shape ↔ ∀ a ∈ as, ∀ m ∈ a.operands, m.isTight = true) := by
  induction h with
  | nil => exact ⟨[], .nil, by simp, by rintro _ ⟨⟩; exact ⟨rfl, by simp⟩⟩
  | @cons a code as codes hcode _ ih =>
    obtain ⟨f, hf⟩ := hcode
    obtain ⟨fs, hfs, hsome, hfits⟩ := ih
    refine ⟨f :: fs, .cons hf.spells hfs, ?_, ?_⟩
    · rw [forall_mem_cons, ← hsome, ← hf.isSome_iff, mapM_cons]
      cases f <;> cases fs.mapM fun f => f <;> simp
    · intro fs' hfs'
      rw [mapM_cons] at hfs'
      obtain ⟨f', hf', hfs'⟩ := bind_eq_some_iff.mp hfs'
      obtain ⟨fs'', hfs'', hfs'⟩ := bind_eq_some_iff.mp hfs'
      cases hfs'
      obtain ⟨hleaves, hiff⟩ := hfits fs'' hfs''
      have hfit := hf.fits f' hf'
      constructor
      · simp only [map_cons, leavesList, hleaves, hfit.leaves]
      · simp only [map_cons, List.cons.injEq, hiff, hfit.reading_eq_iff, forall_mem_cons]

/-- An index renders its target and its place. -/
theorem renders_index {place : String}
    (hkind : n.kind = .index) (hfunc : n.func = some func) (hargs : n.args = [arg])
    (hparts : n.operandParts = [func, arg]) (ht : Renders p cx func target f)
    (hp : Renders p cx arg place f') :
    ∃ f, Renders p cx n ("ceto::bounds_check(" ++ target ++ "," ++ place ++ ")") f := by
  have hcheck : Spells "ceto::bounds_check" (some (.single (.name "ceto::bounds_check"))) :=
    Spells.word (by decide) (all_eq_true.mp (by decide))
  have hcode : "ceto::bounds_check(" ++ target ++ "," ++ place ++ ")" =
      "ceto::bounds_check" ++ ("(" ++ (separatorText false).intercalate [target, place] ++ ")") := by
    rw [String.intercalate_cons_cons, String.intercalate_singleton,
      show "ceto::bounds_check(" = "ceto::bounds_check" ++ "(" from rfl]
    simp only [String.append_assoc]
    rfl
  have hspells : Spells ("ceto::bounds_check(" ++ target ++ "," ++ place ++ ")")
      (f.bind fun a => f'.map fun b => .single (.index a.reading b.reading)) := by
    rw [hcode]
    have hcall := hcheck.call (.cons ht.spells (.cons hp.spells .nil)) false .round
    cases f <;> cases f' <;> exact hcall
  have hpointer : isPointer p cx n = false := isPointer_eq_false (by simp [name?, hkind])
  have htight : n.isTight = true := by simp [isTight, hkind]
  refine ⟨_, hspells, ?_, ?_⟩
  · rw [forall_mem_operands_iff (P := fun m => isPointer p cx m = false) hpointer hparts]
    simp only [mem_cons, not_mem_nil, or_false, forall_eq_or_imp, forall_eq, ← ht.isSome_iff,
      ← hp.isSome_iff]
    cases f <;> cases f' <;> simp
  · intro f'' hf''
    obtain ⟨a, ha, hf''⟩ := bind_eq_some_iff.mp hf''
    obtain ⟨b, hb, rfl⟩ := map_eq_some_iff.mp hf''
    have hfa := ht.fits a ha
    have hfb := hp.fits b hb
    refine fits_single (by simp [isBare, hkind]) ?_ ?_ fun _ => rfl
    · rw [shape_index hkind hfunc hargs, Reading.leaves, hfa.leaves, hfb.leaves]
      rfl
    · rw [shape_index hkind hfunc hargs,
        forall_mem_operands_iff (P := fun m => m.isTight = true) htight hparts]
      simp only [Reading.index.injEq, mem_cons, not_mem_nil, or_false, forall_eq_or_imp,
        forall_eq, hfa.reading_eq_iff, hfb.reading_eq_iff]

theorem isBare_call (hkind : n.isCall = true) (nested : Bool) : n.isBare nested = false := by
  unfold isCall at hkind
  split at hkind <;> simp_all [isBare]

theorem isTight_call (hkind : n.isCall = true) (hfunc : n.func = some func) :
    n.isTight = true ↔ func.isBare false = false := by
  unfold isCall at hkind
  split at hkind <;> simp_all [isTight]

theorem name?_call (hkind : n.isCall = true) : n.name? = none := by
  unfold isCall at hkind
  split at hkind <;> simp_all [name?]

/-- A called name renders its arguments. -/
theorem renders_applied {s : String} {fs : Option (List Flat)}
    (hkind : n.isCall = true) (hfunc : n.func = some func) (hname : func.kind = .name s)
    (hparts : n.operandParts = n.args) (hspells : Spells code (fs.map fun fs =>
      .single (.applied (.name (canonical s)) (fs.map Flat.reading))))
    (hsome : fs.isSome = true ↔ ∀ a ∈ n.args, ∀ m ∈ a.operands, isPointer p cx m = false)
    (hfits : ∀ fs' ∈ fs, leavesList (fs'.map Flat.reading) = leavesList (n.args.map shape) ∧
      (fs'.map Flat.reading = n.args.map shape ↔
        ∀ a ∈ n.args, ∀ m ∈ a.operands, m.isTight = true)) :
    ∃ f, Renders p cx n code f := by
  have hpointer : isPointer p cx n = false := isPointer_eq_false (name?_call hkind)
  have htight : n.isTight = true := (isTight_call hkind hfunc).mpr (by simp [isBare, hname])
  have hshape : n.shape = .applied (.name (canonical s)) (n.args.map shape) := by
    rw [shape_call hkind hfunc, shape_leaf (n := func) (s := s) (by rw [hname]; rfl)]
  refine ⟨_, hspells, ?_, ?_⟩
  · rw [isSome_map, hsome,
      forall_mem_operands_iff (P := fun m => isPointer p cx m = false) hpointer hparts]
  · intro f' hf'
    obtain ⟨fs', hfs', rfl⟩ := map_eq_some_iff.mp hf'
    obtain ⟨hleaves, hiff⟩ := hfits fs' hfs'
    refine fits_single (isBare_call hkind _) ?_ ?_ fun _ => rfl
    · rw [hshape, Reading.leaves, hleaves]
      rfl
    · rw [hshape, forall_mem_operands_iff (P := fun m => m.isTight = true) htight hparts, ← hiff]
      simp

/-- What calls of the name `s` are read as, if its arguments contribute `fs`. -/
def appliedFlat (s : String) (fs : List (Option Flat)) : Option Flat :=
  (fs.mapM fun f => f).map fun fs => .single (.applied (.name (canonical s)) (fs.map Flat.reading))

section Instances

variable {s : String} {codes : List String} {fs : List (Option Flat)}

/-- Arguments after a text that stands for the name `s`, unless an argument spoils it. -/
theorem spells_applied {maker : String} {made : Option (List Flat)} (hs : isIdentifier s = true)
    (hmaker : Spells maker (made.map fun _ => .single (.name (canonical s))))
    (hmade : made = none → (fs.mapM fun f => f) = none) (hfs : List.Forall₂ Spells codes fs)
    (b : Bracket) :
    Spells (maker ++ (b.openText ++ commas codes ++ b.closeText)) (appliedFlat s fs) := by
  have hspells : Spells (maker ++ (b.openText ++ commas codes ++ b.closeText)) _ :=
    hmaker.call hfs true b
  have hcall := call_canonical (isNumeral_of_isIdentifier hs)
  unfold appliedFlat
  cases made with
  | none =>
    rw [hmade rfl]
    exact hspells
  | some made => simpa only [Option.map_some, Option.bind_some, Flat.single, hcall] using hspells

theorem spells_name (hs : isIdentifier s = true) (hfs : List.Forall₂ Spells codes fs) (b : Bracket) :
    Spells (s ++ (b.openText ++ commas codes ++ b.closeText)) (appliedFlat s fs) := by
  obtain ⟨hne, hword⟩ := isWord_of_isNumeral (isNumeral_of_isIdentifier hs)
  have hmaker : Spells s ((some ([] : List Flat)).map fun _ => .single (.name (canonical s))) :=
    Spells.word hne hword
  exact spells_applied hs hmaker (by simp) hfs b

theorem bracketed_eq (isEmpty : Bool) (args : String) :
    (if isEmpty then parens args else braced args) =
      (if isEmpty then Bracket.round else .curly).openText ++ args ++
        (if isEmpty then Bracket.round else .curly).closeText := by
  cases isEmpty <;> rfl

/-- A new instance is read as a call of its class. -/
theorem spells_instance (hs : isIdentifier s = true) (hfs : List.Forall₂ Spells codes fs)
    (c : ClassEntry) (isConst isEmpty : Bool) :
    Spells (instanceText c isConst isEmpty s (commas codes)) (appliedFlat s fs) := by
  obtain ⟨hne, hword⟩ := isWord_of_isNumeral (isNumeral_of_isIdentifier hs)
  have hspecifier : s ∉ ["const", "decltype"] := by
    intro hmem
    have hnone : ∀ w ∈ ["const", "decltype"], isIdentifier w = false := by decide
    rw [hnone s hmem] at hs
    cases hs
  unfold instanceText
  dsimp only
  rw [bracketed_eq]
  split
  · exact spells_name hs hfs _
  · -- the class stands as itself or as the type of an instance, then `const` may stand before it
    obtain ⟨made, hclass, hmade⟩ : ∃ made, SpellsClass (if c.isConcrete then s else
        "decltype(" ++ s ++ ((if isEmpty then Bracket.round else .curly).openText ++ commas codes ++
          (if isEmpty then Bracket.round else .curly).closeText) ++ ")") s made ∧
        (made = none → (fs.mapM fun f => f) = none) := by
      split
      · exact ⟨some [], .word hne hword hspecifier [], by simp⟩
      · exact ⟨_, .decltype hne hword hspecifier hfs _, fun h => h⟩
    generalize (if c.isConcrete then s else _) = inner at hclass ⊢
    have hconst : SpellsClass ((if isConst then "const " else "") ++ inner) s made := by
      cases isConst with
      | false => simpa using hclass
      | true => exact hclass.const
    have hmaker : "ceto::" ++ (if c.isUnique then "make_unique_propagate_const"
        else "make_shared_propagate_const") ∈ makers := by
      cases c.isUnique <;> decide
    have hspells := spells_applied hs (hconst.maker hmaker) hmade hfs .round
    simpa only [parens, Bracket.openText, Bracket.closeText, String.append_assoc] using hspells

end Instances

/-- A call of a name, or a new instance of the class of that name. -/
theorem renders_plainCall {s : String} {codes : List String}
    (hkind : n.isCall = true) (hfunc : n.func = some func) (hname : func.kind = .name s)
    (hs : isIdentifier s = true) (hparts : n.operandParts = n.args)
    (hargs : List.Forall₂ (fun a code => ∃ f, Renders p cx a code f) n.args codes)
    (hcode : code = s ++ parens (commas codes) ∨
      ∃ c isConst, code = instanceText c isConst n.args.isEmpty s (commas codes)) :
    ∃ f, Renders p cx n code f := by
  obtain ⟨fs, hfs, hsome, hfits⟩ := exists_renders_args hargs
  have hspells : Spells code (appliedFlat s fs) := by
    rcases hcode with rfl | ⟨c, isConst, rfl⟩
    · exact spells_name hs hfs .round
    · exact spells_instance hs hfs c isConst _
  exact renders_applied hkind hfunc hname hparts hspells hsome hfits

/-- A called expression renders its function and its arguments. -/
theorem renders_call {codes : List String}
    (hkind : n.isCall = true) (hfunc : n.func = some func) (hparts : n.operandParts = func :: n.args)
    (hnested : inParens p func = false) (hf : Renders p cx func target f)
    (hargs : List.Forall₂ (fun a code => ∃ f, Renders p cx a code f) n.args codes) :
    ∃ f, Renders p cx n (target ++ parens (commas codes)) f := by
  obtain ⟨fs, hfs, hsome, hfits⟩ := exists_renders_args hargs
  have hpointer : isPointer p cx n = false := isPointer_eq_false (name?_call hkind)
  refine ⟨_, hf.spells.call hfs true .round, ?_, ?_⟩
  · rw [forall_mem_operands_iff (P := fun m => isPointer p cx m = false) hpointer hparts,
      forall_mem_cons, ← hsome, ← hf.isSome_iff]
    cases f <;> simp
  · intro f' hf'
    obtain ⟨a, ha, hf'⟩ := bind_eq_some_iff.mp hf'
    obtain ⟨fs', hfs', rfl⟩ := map_eq_some_iff.mp hf'
    obtain ⟨hleaves, hiff⟩ := hfits fs' hfs'
    have hfa := hf.fits a ha
    rw [hnested] at hfa
    rw [hfa.call_last]
    have hshape := shape_call hkind hfunc
    refine ⟨?_, ?_, fun hreading => ?_, fun _ => rfl⟩
    · have hfleaves := hfa.leaves
      rw [Flat.leaves_reading] at hfleaves ⊢
      rw [hshape]
      simp only [Reading.leaves] at hfleaves ⊢
      omega
    · rw [hshape, Flat.reading_eq_iff rfl, forall_mem_operands, hparts, forall_mem_cons,
        isTight_call hkind hfunc, ← hiff, ← and_assoc, ← hfa.isClosed_and_last_iff]
      simp only [Flat.IsClosed, Reading.applied.injEq, and_assoc]
    · rw [hshape] at hreading
      have hclosed := ((Flat.reading_eq_iff rfl).mp hreading).1
      simp [hclosed, isBare_call hkind]

end Emit
end Cppward
