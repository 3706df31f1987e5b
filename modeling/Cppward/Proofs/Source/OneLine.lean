import Cppward.Proofs.Source.Constructor

namespace Cppward.Source

open Grammar Layout Text List Node

/-!
# Texts of one line

A text of one line that the layout and the completion of branch words leave alone is read by the
grammar as it stands.  If the grammar takes it for one expression, the text is a module with one
statement.

* `IsLine` — the texts in question.
* `readModule_of_line` — the module of such a text.
-/

variable {text : List Char} {tree m n : Node}

/-- A text of one line that reaches the grammar as it is, with a semicolon behind it. -/
structure IsLine (text : List Char) : Prop where
  passes : Passes text
  quiet : Quiet none (text ++ [';'])
  newline : '\n' ∉ text
  tab : '\t' ∉ text
  head : ∃ c cs, text = c :: cs ∧ isBlank c = false
  last : ∀ c ∈ text.getLast?, isBlank c = false

/-! ### Statements -/

theorem reads_finished : Reads Reader.finished [] (fun _ => True) [] := by
  intro c hc
  obtain ⟨_, c', heq, -, hrest⟩ := reads_gaps c hc
  refine ⟨(), c, ?_, trivial, hc⟩
  obtain ⟨-, rfl⟩ : () = () ∧ c.skipGaps = c' :=
    Prod.mk.inj (Option.some.inj (congrArg Outcome.value heq))
  rw [Reader.finished, hrest]
  rfl

theorem readsAt_statements {depth : Nat} {c : Cursor}
    (h : ReadsAt (expression depth) c (Denotes · tree) [';']) :
    ReadsAt (statements depth) c (fun ns => ∃ m, ns = [m] ∧ Denotes m tree) [] := by
  have hstatement := h.bind (f := fun m => do Reader.symbol ";"; return m)
    fun m hm => (reads_symbol rfl).bind fun _ _ => .pure hm
  have hnone : Refuses (expression depth) [] := refuses_expression depth (by rintro _ ⟨⟩)
  exact (hstatement.many1 hnone.bind).bind fun ns hns => reads_finished.bind fun _ _ => .pure hns

/-! ### Blocks -/

theorem expandTabsFrom_of_not_mem {cs : List Char} (h : '\t' ∉ cs) (column : Nat) :
    expandTabsFrom column cs = cs := by
  induction cs generalizing column with
  | nil => rfl
  | cons c cs ih =>
    rw [mem_cons, not_or] at h
    have hc : (c == '\t') = false := beq_eq_false_iff_ne.mpr (Ne.symm h.1)
    rw [expandTabsFrom, hc, if_neg Bool.false_ne_true, ih h.2, ih h.2, ite_self]

theorem IsLine.strip (h : IsLine text) : strip ('\n' :: (text ++ [';'])) = text ++ [';'] := by
  obtain ⟨x, cs, rfl, hx⟩ := h.head
  rw [Text.strip, dropWhile_cons_of_pos (by decide), cons_append,
    dropWhile_cons_of_neg (by rw [hx]; exact Bool.false_ne_true)]
  refine stripRight_of_getLast? ?_
  rw [← cons_append, getLast?_concat]
  rintro _ ⟨⟩
  decide

theorem IsLine.readBlock (h : IsLine text)
    (hread : ReadsAt (expression (text.length + 2)) { rest := text ++ [';'] } (Denotes · tree)
      [';']) :
    ∃ m, readBlock ('\n' :: (text ++ [';'])) = .ok [m] ∧ Denotes m tree := by
  have htab : '\t' ∉ text ++ [';'] := by
    rw [mem_append, not_or]
    exact ⟨h.tab, by decide⟩
  have htext : expandTabs (completeBranches (Text.strip ('\n' :: (text ++ [';'])))) =
      text ++ [';'] := by
    rw [h.strip, completeBranches_of_quiet h.quiet, expandTabs, expandTabsFrom_of_not_mem htab]
  obtain ⟨_, c, hstatements, ⟨m, rfl, hm⟩, -⟩ := readsAt_statements hread
  have hlength : (text ++ [';']).length + 1 = text.length + 2 := by simp
  refine ⟨m, ?_, hm⟩
  unfold Source.readBlock
  simp only [htext, hlength, hstatements]

theorem IsLine.readBlocks (h : IsLine text)
    (hread : ReadsAt (expression (text.length + 2)) { rest := text ++ [';'] } (Denotes · tree)
      [';']) :
    ∃ m, readBlocks [⟨0, '\n' :: (text ++ [';'])⟩, ⟨1, ['\n']⟩] = .ok [m] ∧ Denotes m tree := by
  obtain ⟨m, hblock, hm⟩ := h.readBlock hread
  have hblank : allBlank ('\n' :: (text ++ [';'])) = false := by
    obtain ⟨x, cs, hf, hx⟩ := h.head
    rw [allBlank, all_eq_false]
    exact ⟨x, by rw [hf]; simp, by rw [hx]; exact Bool.false_ne_true⟩
  refine ⟨m, ?_, hm⟩
  rw [Source.readBlocks, hblank, if_neg Bool.false_ne_true, hblock]
  rfl

/-! ### Modules and programs -/

theorem isCallOf_of_alike (h : m.alike (· == ·) n = true) (word : String) :
    m.isCallOf word = n.isCallOf word := by
  obtain ⟨hkind, hfunc, -⟩ := (alike_iff m n).mp h
  have hname : m.funcName? = n.funcName? := by
    rw [alikeList_iff] at hfunc
    rw [funcName?, funcName?]
    cases hm : m.func with
    | none =>
      rw [hm, Option.toList_none, forall₂_nil_left_iff] at hfunc
      rw [Option.toList_eq_nil_iff.mp hfunc]
    | some f =>
      rw [hm, Option.toList_some, forall₂_cons_left_iff] at hfunc
      obtain ⟨g, rest, hfg, hrest, hn⟩ := hfunc
      rw [forall₂_nil_left_iff.mp hrest, Option.toList_eq_singleton_iff] at hn
      rw [hn, Option.bind_some, Option.bind_some, Node.name?, Node.name?,
        beq_iff_eq.mp ((alike_iff f g).mp hfg).1]
  rw [isCallOf, isCallOf, isCall, isCall, beq_iff_eq.mp hkind, hname]

/-- **A line with one expression** is a module with one statement. -/
theorem readModule_of_line {source : String} (hsource : hideEscapes source.toList = text)
    (hline : IsLine text)
    (hread : ReadsAt (expression (text.length + 2)) { rest := text ++ [';'] } (Denotes · tree)
      [';'])
    (htree : tree.isCallOf "namespace" = false) :
    ∃ m, readModule source = .ok (ofModule [m]) ∧ m.alike (· == ·) tree = true := by
  obtain ⟨l, hlayout, hblocks⟩ := layout_of_passes hline.passes hline.newline hline.head hline.last
  obtain ⟨m, hm, halike⟩ := hline.readBlocks hread
  -- the statement is no call of `namespace`, so the module stays as it is
  have hunwrap : unwrap false (ofModule [m]) = ofModule [unwrap false m] := rfl
  have hshort : ∀ n ∈ (ofModule [unwrap false m]).args, isShort n = false := by
    intro n hn
    rw [mem_singleton.mp hn, isShort, isNamespace, isCallOf_of_alike halike, htree,
      Bool.false_and]
  refine ⟨unwrap false m, ?_, halike⟩
  rw [readModule, hsource, hlayout]
  simp only [hblocks, hm, bind, Except.bind, hunwrap, expandNamespace_of_none hshort]
  rfl

theorem expandIncludes_singleton {σ : Type}
    {load : String → Action σ (Option (Header × List Node))}
    (h : m.isCallOf "include" = false) (state : σ) :
    (expandIncludes load [m]).perform state = (.ok [m], state) := by
  simp only [expandIncludes, h]
  rfl

theorem readProgram_of_readModule {source : String}
    (h : readModule source = .ok (ofModule [m]))
    (hm : m.isCallOf "include" = false) : readProgram source = .ok (ofModule [m]) := by
  rw [readProgram, h]
  simp only [ofModule, make, bind, Except.bind, expandIncludes_singleton hm]
  rfl

end Cppward.Source
