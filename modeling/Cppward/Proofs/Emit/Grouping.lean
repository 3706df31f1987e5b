import Cppward.Proofs.Emit.Render

namespace Cppward

open Analysis Emit Target

/-!
# Grouping survives generation, where nothing loose is called

Parentheses are not part of a tree.  Generation puts them around operators that are operands of
operators, but not around an operator that is called or that a member is selected from, and not
around a negation.

* `read_emitted_iff` — the code is read as the shape of the tree exactly if the tree is grouped.
-/

namespace Emit

open Node

variable {cx : Context} {g g' : Generator} {n : Node} {k : Nat} {code : String}

/-! ### Whole trees -/

theorem inParens_part {part : Node} (hheld : p.Holds n) (hpart : part ∈ n.operandParts) :
    inParens p part =
      ((n.isBinary || n.isUnary) && !(n.isScope || n.isArrow || n.isAttribute)) := by
  rw [inParens, hheld.parent (mem_parts_of_mem_operandParts hpart)]
  rfl

theorem operandParts_leaf (hexpr : n.isExpression = true)
    (hleaf : n.kind.leafText?.isSome = true) : n.operandParts = [] ∧ n.isTight = true := by
  cases form_of_isExpression hexpr with
  | name s hkind hs hparts => exact ⟨hparts, by simp [isTight, hkind]⟩
  | number s hleaf hs hkind hparts =>
    rcases hkind with ⟨_, _, hkind⟩ | ⟨_, _, hkind⟩ <;> exact ⟨hparts, by simp [isTight, hkind]⟩
  | unary op arg hkind => simp [hkind, Kind.leafText?] at hleaf
  | arrow lhs rhs hkind => simp [hkind, Kind.leafText?] at hleaf
  | binary cls op lhs rhs hkind => simp [hkind, Kind.leafText?] at hleaf
  | index func arg hkind => simp [hkind, Kind.leafText?] at hleaf
  | call func hkind =>
    unfold isCall at hkind
    split at hkind <;> simp_all [Kind.leafText?]

/-- The code of a tree that can be read contributes what fits the tree. -/
theorem exists_renders (hexpr : n.isExpression = true) (hheld : g.program.Holds n)
    (hreadable : ∀ m ∈ n.operands, m.isReadable = true)
    (h : (emitter k).node n cx g = .ok (code, g')) : ∃ f, Renders g.program cx n code f := by
  induction n, hexpr using expressionInduction generalizing k code g' with
  | step n hexpr ih =>
    cases k with
    | zero => cases h
    | succ k =>
      rw [forall_mem_operands] at hreadable
      -- The induction hypothesis for a part; the parts are all generated in the state `g`.
      have hpart : ∀ part ∈ n.operandParts, ∀ {code g'}, (emitter k).node part cx g = .ok (code, g') →
          g' = g ∧ ∃ f, Renders g.program cx part code f := by
        intro part hpart code g' h
        have hpheld := hheld.part (mem_parts_of_mem_operandParts hpart)
        exact ⟨(state_of_emitted (isExpression_operandPart hexpr hpart) hpheld h).symm,
          ih part hpart hpheld (hreadable.2 part hpart) h⟩
      have hargs : ∀ {codes g'}, (∀ a ∈ n.args, a ∈ n.operandParts) →
          n.args.mapM ((emitter k).node · cx) g = .ok (codes, g') →
          List.Forall₂ (fun a code => ∃ f, Renders g.program cx a code f) n.args codes := by
        intro codes g' hmem h
        have hcodes := (Gen.mapM_eq_ok (fun a ha b g' h => (hpart a (hmem a ha) h).1) h).2
        refine ((List.forall₂_and_left _ _).mpr ⟨fun a ha => ha, hcodes⟩).imp fun a code h => ?_
        exact (hpart a (hmem a h.1) h.2).2
      cases emits_of_ok hexpr hheld.current h with
      | name s hkind hs hparts h => exact renders_name hkind hs hparts h
      | number hleaf hs hname hparts hstate =>
        obtain ⟨hne, hword⟩ := isWord_of_isNumeral hs
        exact ⟨_, renders_leaf (Spells.word hne hword) hs hleaf hparts (isPointer_eq_false hname)⟩
      | unary op arg argCode hkind hop hns hparts harg hcode =>
        have hmem : arg ∈ n.operandParts := by simp [hparts]
        have hnested : inParens g.program arg = true := by
          rw [inParens_part hheld hmem]
          simp [isBinary, isUnary, isScope, isArrow, isAttribute, binary?, hkind]
        obtain ⟨-, f, hf⟩ := hpart arg hmem harg
        rw [hcode]
        exact renders_unary hkind hop hns hparts hnested hf
      | arrow lhs rhs left right g₁ hkind hns hparts hlhs hrhs hcode =>
        have hlmem : lhs ∈ n.operandParts := by simp [hparts]
        have hrmem : rhs ∈ n.operandParts := by simp [hparts]
        have hnested : inParens g.program lhs = false := by
          rw [inParens_part hheld hlmem]
          simp [isArrow, binary?, hkind]
        -- On the right a word stands, which is not read as an operand: the induction hypothesis is
        -- of no use for it beyond the state.
        have hrexpr := isExpression_operandPart hexpr hrmem
        have hrheld := hheld.part (mem_parts_of_mem_operandParts hrmem)
        have hleaf : rhs.kind.leafText?.isSome = true := by
          simpa [isReadable, hkind, rhs?, hns] using hreadable.1
        obtain ⟨rfl, f, hf⟩ := hpart lhs hlmem hlhs
        obtain ⟨rfl, -⟩ := hpart rhs hrmem hrhs
        cases k with
        | zero => cases hrhs
        | succ k =>
          have hselects := selects_of_ok hrexpr hrheld hleaf
            (hheld.parent (mem_parts_of_mem_operandParts hrmem)) (by simp [isArrow, binary?, hkind]) hrhs
          obtain ⟨hrparts, hrtight⟩ := operandParts_leaf hrexpr hleaf
          rw [hcode]
          exact renders_arrow hkind hns hparts hnested hf hselects hrparts hrtight
      | binary cls op lhs rhs left right g₁ hkind hcls hop hns hparts hlhs hrhs hcode =>
        have hnested : ∀ part ∈ n.operandParts, inParens g.program part = true := by
          intro part hmem
          rw [inParens_part hheld hmem]
          rcases hcls with rfl | rfl | rfl <;>
            simp [isBinary, isScope, isArrow, isAttribute, binary?, hkind]
        obtain ⟨rfl, f, hf⟩ := hpart lhs (by simp [hparts]) hlhs
        obtain ⟨rfl, f', hf'⟩ := hpart rhs (by simp [hparts]) hrhs
        rw [hcode]
        exact renders_binary hkind hcls hop hns hparts hreadable.1 (hnested lhs (by simp [hparts]))
          (hnested rhs (by simp [hparts])) hf hf'
      | index func arg target place g₁ hkind hfunc hns hparts htarget hplace hcode =>
        obtain ⟨rfl, f, hf⟩ := hpart func (by simp [hparts]) htarget
        obtain ⟨-, f', hf'⟩ := hpart arg (by simp [hparts]) hplace
        rw [hcode]
        exact renders_index hkind hfunc hns hparts hf hf'
      | plainCall func s codes hkind hfunc hname hs hparts hcodes hcode =>
        exact renders_plainCall hkind hfunc hname hs hparts
          (hargs (fun a ha => by rwa [hparts]) hcodes) hcode
      | call func target codes g₁ hkind hfunc hparts htarget hcodes hcode =>
        have hmem : func ∈ n.operandParts := by simp [hparts]
        have hnested : inParens g.program func = false := by
          rw [inParens_part hheld hmem]
          unfold isCall at hkind
          split at hkind <;> simp_all [isBinary, isUnary, binary?]
        obtain ⟨rfl, f, hf⟩ := hpart func hmem htarget
        rw [hcode]
        exact renders_call hkind hfunc hparts hnested hf
          (hargs (fun a ha => by rw [hparts]; exact List.mem_cons_of_mem _ ha) hcodes)

/-- The code of an expression, read by the rules of the target language, has the structure of the
    tree exactly if the tree is grouped. -/
theorem read_emitted_iff (hexpr : n.isExpression = true) (hheld : g.program.Holds n)
    (h : (emitter k).node n cx g = .ok (code, g')) :
    read code = some n.shape ↔ n.Grouped (isPointer g.program cx) := by
  constructor
  · intro hread
    have hreadable := isReadable_of_isRegular hexpr (isRegular_of_read hread)
    obtain ⟨f, hf⟩ := exists_renders hexpr hheld hreadable h
    rw [hf.spells.read_eq] at hread
    obtain ⟨f', rfl, hshape⟩ := Option.map_eq_some_iff.mp hread
    exact fun m hm => ⟨hreadable m hm, (hf.fits f' rfl).reading_eq_iff.mp hshape m hm,
      hf.isSome_iff.mp rfl m hm⟩
  · intro hgrouped
    obtain ⟨f, hf⟩ := exists_renders hexpr hheld (fun m hm => (hgrouped m hm).1) h
    obtain ⟨f', rfl⟩ := Option.isSome_iff_exists.mp
      (hf.isSome_iff.mpr fun m hm => (hgrouped m hm).2.2)
    have hreading := (hf.fits f' rfl).reading_eq_iff.mpr fun m hm => (hgrouped m hm).2.1
    rw [hf.spells.read_eq, Option.map_some, hreading]

/-- The tree of `(not (a + b)) * f->g(c, 1)`. -/
def sampleTree : Node :=
  Node.ofBinary .plain "*"
    (Node.make (.unary "not") none [Node.ofBinary .plain "+" (Node.ident "a") (Node.ident "b")])
    (Node.ofCall (Node.ofBinary .arrow "->" (Node.ident "f") (Node.ident "g"))
      [Node.ident "c", Node.ofDigits "1"])

theorem sample_read_emitted :
    let g := alone sampleTree
    let n := g.program.tree
    let code := "!(a + b) * f -> g(c, 1)"
    n.isExpression = true ∧ g.program.Holds n ∧ (emitter 4).node n 0 g = .ok (code, g) ∧
      (read code = some n.shape ↔ n.Grouped (isPointer g.program 0)) := by
  intro g n code
  have hexpr : n.isExpression = true := by decide
  have hheld : g.program.Holds n := Program.holds_iff_map_eq.mpr ⟨rfl, rfl⟩
  have hcode : (emitter 4).node n 0 g = .ok (code, g) := rfl
  exact ⟨hexpr, hheld, hcode, read_emitted_iff hexpr hheld hcode⟩

/-- The tree of `(a + b)(c)`. -/
def calledSum : Node :=
  Node.ofCall (Node.ofBinary .plain "+" (Node.ident "a") (Node.ident "b")) [Node.ident "c"]

/-- A sum that is called: what is written is a sum whose right operand is called. -/
theorem read_emitted_called_sum :
    (alone calledSum).program.tree.isExpression = true ∧
      (alone calledSum).program.Holds (alone calledSum).program.tree ∧
      (emitter 3).node (alone calledSum).program.tree 0 (alone calledSum) =
        .ok ("a + b(c)", alone calledSum) ∧
      read "a + b(c)" = some (.infixed "+" (.name "a") (.applied (.name "b") [.name "c"])) ∧
      read "a + b(c)" ≠ some (alone calledSum).program.tree.shape := by
  have hread : read "a + b(c)" =
      some (.infixed "+" (.name "a") (.applied (.name "b") [.name "c"])) := rfl
  have hpostfix : (alone calledSum).program.tree.shape.isPostfix = true := by decide +kernel
  refine ⟨by decide +kernel, Program.holds_iff_map_eq.mpr ⟨rfl, rfl⟩, rfl, hread, ?_⟩
  intro h
  rw [← Option.some.inj (hread.symm.trans h)] at hpostfix
  cases hpostfix

end Emit
end Cppward
