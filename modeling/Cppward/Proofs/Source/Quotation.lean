import Cppward.Proofs.Source.OneLine

namespace Cppward.Source

open Grammar Layout Text List Node

/-!
# Quoted trees

The constructor expression of a tree is itself a program: one statement, which calls the constructor
of the tree.  This is how a quotation is turned into code.

* `readModule_outline` — the program of an outline is the tree of the outline, with the values that
  its texts have for the grammar.
* `exists_readProgram_constructorText` — the expression of a tree is read as one statement, and this
  is the call that builds the tree exactly if no name in the tree shows the word that stands for a
  backslash.
-/

variable {name : ClassName} {args : List Outline} {loc : Nat} {n : Node} {c : Char}

/-! ### Programs -/

/-- A call of a constructor is no call of anything else. -/
theorem isCallOf_tree {word : String} (hword : isClassName word = false) (r : String → String) :
    ((Outline.apply name args loc).tree r).isCallOf word = false := by
  have hne : name.val ≠ word := by
    rintro rfl
    rw [name.property] at hword
    cases hword
  simpa [Outline.tree, ofCall, ident, make, isCallOf, isCall,
    funcName?, Node.name?] using hne

theorem isBlank_of_isStart {x : Char} (h : isStart x = true) : isBlank x = false := by
  simpa using of_isStart (fun x => !isBlank x) (by decide) (by decide) (by decide) (by decide) h

/-- The text of a constructor is a line. -/
theorem isLine_hidden (hcontrol : ∀ c ∈ ['\n', '\t'], c ∉ hidden (.apply name args loc)) :
    IsLine (hidden (.apply name args loc)) where
  passes := (orderly_print rfl (.apply name args loc)).passes
  quiet := quiet_of_orderly (orderly_print rfl (.apply name args loc))
    (fun q => .plain (by decide) (by decide) (unbranched_of_start (.inl (by decide))) .nil) none
  newline := hcontrol _ (by decide)
  tab := hcontrol _ (by decide)
  head := by
    obtain ⟨x, cs, hf, hx⟩ := exists_hidden_eq_cons (.apply name args loc)
    exact ⟨x, cs, hf, isBlank_of_isStart hx⟩
  last := by
    rw [hidden_apply, ← cons_append, ← append_assoc, getLast?_concat]
    rintro _ ⟨⟩
    decide

/-- **The program of a constructor** is one statement, the call of the constructor. -/
theorem readModule_outline {source : String}
    (hsource : source.toList = (Outline.apply name args loc).print Style.program quote)
    (hcontrol : ∀ c ∈ ['\n', '\t'], c ∉ hidden (.apply name args loc)) :
    ∃ m, readModule source = .ok (ofModule [m]) ∧
      m.alike (· == ·) ((Outline.apply name args loc).tree restored) = true := by
  have hhide : hideEscapes source.toList = hidden (.apply name args loc) := by
    rw [hsource, hideEscapes_print rfl]
  have hread : Reads (expression ((hidden (.apply name args loc)).length + 2))
      (hidden (.apply name args loc) ++ [';'])
      (Denotes · ((Outline.apply name args loc).tree restored)) [';'] :=
    readsOutline_expression _ _ (Nat.le_add_right _ 2) _ _ (dropWhile_hidden _ _)
      ⟨';', [], rfl, by decide⟩
  exact readModule_of_line hhide (isLine_hidden hcontrol) (hread _ rfl)
    (isCallOf_tree (by decide) restored)

/-! ### Calls that build trees -/

/-- Nodes that are alike are alike to the same nodes. -/
theorem alike_congr {a : Node} : ∀ {b : Node}, a.alike (· == ·) b = true → ∀ c,
    (a.alike (· == ·) c = true ↔ b.alike (· == ·) c = true) := by
  have hlist : ∀ {as bs : List Node}, alikeList (· == ·) as bs = true →
      (∀ a ∈ as, ∀ {b : Node}, a.alike (· == ·) b = true → ∀ c,
        (a.alike (· == ·) c = true ↔ b.alike (· == ·) c = true)) →
      ∀ cs, (alikeList (· == ·) as cs = true ↔ alikeList (· == ·) bs cs = true) := by
    intro as bs h ih cs
    rw [alikeList_iff] at h
    induction h generalizing cs with
    | nil => rfl
    | cons hab _ ihs =>
      obtain ⟨ha, has⟩ := forall_mem_cons.mp ih
      cases cs with
      | nil => simp [alikeList]
      | cons c cs =>
        rw [alikeList, alikeList, Bool.and_eq_true, Bool.and_eq_true, ha hab c,
          ihs has cs]
  induction a using Node.induction with
  | step a ihfunc ihargs _ =>
    intro b h c
    obtain ⟨hkind, hfunc, hargs⟩ := (alike_iff a b).mp h
    rw [alike_iff, alike_iff, beq_iff_eq.mp hkind, hlist hargs ihargs c.args,
      hlist hfunc (fun f hf => ihfunc f (Option.mem_toList.mp hf)) c.func.toList]

/-- The trees of an outline under two readings of its texts are alike if the readings agree. -/
theorem tree_alike_iff (r : String → String) (f : Outline) :
    (f.tree r).alike (· == ·) (f.tree id) = true ↔ ∀ t ∈ f.texts, r t = t := by
  have hlist : ∀ fs : List Outline,
      (∀ f ∈ fs, ((f.tree r).alike (· == ·) (f.tree id) = true ↔ ∀ t ∈ f.texts, r t = t)) →
      (alikeList (· == ·) (Outline.treeList r fs) (Outline.treeList id fs) = true ↔
        ∀ t ∈ Outline.textsList fs, r t = t) := by
    intro fs ih
    rw [alikeList_iff, Outline.treeList_eq, Outline.treeList_eq, forall₂_map_left_iff,
      forall₂_map_right_iff, forall₂_same, Outline.textsList_eq, forall_mem_flatMap]
    exact forall₂_congr ih
  induction f using Outline.induction with
  | nothing | free number => simp [Outline.tree, Outline.texts, alike_refl]
  | text t =>
    simp [Outline.tree, Outline.texts, make, alike, alikeOption, alikeList]
  | list items comma ih =>
    rw [Outline.texts, ← hlist items ih]
    simp [Outline.tree, ofBinary, ident, make, alike, alikeOption,
      alikeList]
  | apply name args loc ih =>
    rw [Outline.texts, ← hlist args ih]
    simp [Outline.tree, ofCall, ident, make, alike, alikeOption,
      alikeList]

theorem isLiteral_of_not_mem {t : String} (h : 'C' ∉ t.toList) : IsLiteral t :=
  fun hword => h (hword.subset (by decide))

/-- In the expression of a grammatical tree, only names can show the word for a backslash. -/
theorem isLiteral_texts_iff (h : n.Grammatical) :
    (∀ t ∈ n.outline.texts, IsLiteral t) ↔ ∀ name ∈ n.nameTexts, IsLiteral name := by
  refine ⟨fun htexts name hname => htexts name (mem_texts_of_mem_nameTexts h hname),
    fun hnames t ht => ?_⟩
  rcases mem_texts_outline h ht with (hnumeral | hop) | ⟨-, hliteral⟩ | ⟨hname, -⟩
  · exact isLiteral_of_not_mem fun hmem => absurd (hnumeral 'C' hmem) (by decide)
  · exact isLiteral_of_not_mem ((by decide : ∀ t ∈ operatorTexts, 'C' ∉ t.toList) t hop)
  · exact hliteral
  · exact hnames t hname

/-- Hiding adds no control characters, and takes the newlines away. -/
theorem eq_of_mem_hideChar {d : Char} (hc : IsControl c) (h : c ∈ hideChar d) :
    c = d ∧ c ≠ '\n' := by
  induction d using literal_cases with
  | backslash => exact absurd hc ((by decide : ∀ c ∈ backslashWord.toList, ¬IsControl c) c h)
  | newline => exact absurd hc ((by decide : ∀ c ∈ ['\\', 'n'], ¬IsControl c) c h)
  | quote => exact absurd hc ((by decide : ∀ c ∈ ['\\', '"'], ¬IsControl c) c h)
  | other d h₁ h₂ h₃ =>
    rw [hideChar_of_ne h₁ h₂ h₃] at h
    obtain rfl := mem_singleton.mp h
    exact ⟨rfl, h₂⟩

theorem mem_of_mem_hiddenQuote (t : String) (h : c ∈ hiddenQuote t) (hc : IsControl c) :
    c ∈ t.toList ∧ c ≠ '\n' := by
  obtain ⟨d, hd, hcd⟩ := exists_of_mem_quoteWith hc h
  obtain ⟨rfl, hne⟩ := eq_of_mem_hideChar hc hcd
  exact ⟨hd, hne⟩

/-- The call that builds a tree: it names the class of the tree, and its arguments are the texts of
    the tree, the calls for what it applies and for its affixes, and the list of those for its
    arguments. -/
def constructorCall (n : Node) : Node := n.outline.tree id

/-- The expression of a grammatical tree is one statement. -/
theorem exists_readProgram_of_grammatical (h : n.Grammatical)
    (htab : ∀ t ∈ n.literals, '\t' ∉ t.toList) :
    ∃ m, readProgram (n.constructorText Style.program) = .ok (ofModule [m]) ∧
      m.alike (· == ·) (n.outline.tree restored) = true := by
  have hcontrol : ∀ c ∈ ['\n', '\t'], c ∉ hidden n.outline := by
    intro c hc hmem
    have hctrl := (by decide : ∀ c ∈ ['\n', '\t'], IsControl c) c hc
    obtain ⟨t, ht, hct⟩ := exists_literal_of_mem_print
      (fun t c hc hctrl => (mem_of_mem_hiddenQuote t hc hctrl).1) h hctrl hmem
    obtain ⟨hct, hne⟩ := mem_of_mem_hiddenQuote t hct hctrl
    rcases mem_pair.mp hc with rfl | rfl
    · exact hne rfl
    · exact htab t ht hct
  have hsource := toList_constructorText Style.program h
  rw [outline_eq] at hcontrol hsource ⊢
  obtain ⟨m, hread, hm⟩ := readModule_outline hsource hcontrol
  have hinclude : m.isCallOf "include" = false := by
    rw [isCallOf_of_alike hm, isCallOf_tree (by decide)]
  exact ⟨m, readProgram_of_readModule hread hinclude, hm⟩

/-- **The constructor expression of a tree is the program that builds the tree**, unless a name
    shows the word for a backslash.  For every node of a module that was read from a source text,
    and whose literals hold no tab, the expression is read as a single statement.  This statement is
    the call that builds the node if and only if no name in the node shows that word. -/
theorem exists_readProgram_constructorText {source : String} {module t : Node}
    (h : readModule source = .ok module) (ht : t ∈ module.walk)
    (htab : ∀ s ∈ t.literals, '\t' ∉ s.toList) :
    ∃ statement, readProgram (t.constructorText Style.program) = .ok (Node.ofModule [statement]) ∧
      (statement.alike (· == ·) (constructorCall t) = true ↔
        ∀ name ∈ t.nameTexts, ¬backslashWord.toList <:+: name.toList) := by
  have hgrammatical := (grammatical_of_readModule h).1.of_mem_walk ht
  obtain ⟨m, hread, hm⟩ := exists_readProgram_of_grammatical hgrammatical htab
  refine ⟨m, hread, ?_⟩
  rw [constructorCall, alike_congr hm, tree_alike_iff, forall₂_congr fun t _ => restored_eq_iff t]
  exact isLiteral_texts_iff hgrammatical

/-- A call with a literal in which escapes, brackets, a comment and a branch word stand. -/
def branchSource : String := "f(\"a\\\\\\n\\\"# else <b>\"s)"

theorem readProgram_branchSource : ∃ module statement, readModule branchSource = .ok module ∧
    (∀ s ∈ module.literals, '\t' ∉ s.toList) ∧
      readProgram (module.constructorText Style.program) = .ok (Node.ofModule [statement]) ∧
        statement.alike (· == ·) (constructorCall module) = true := by
  have heval :
      (readModule branchSource).toOption.map (fun module => (module.literals, module.nameTexts)) =
      some (["a\\\n\"# else <b>"], ["f", "s"]) := by
    decide +kernel
  obtain ⟨module, hread, hfacts⟩ := Failing.exists_of_toOption heval
  obtain ⟨hliterals, hnames⟩ := Prod.mk.inj hfacts
  have hself : module ∈ module.walk := by
    rw [Node.walk_eq]
    exact List.mem_cons_self
  have htab : ∀ s ∈ module.literals, '\t' ∉ s.toList := by
    rw [hliterals]
    decide
  obtain ⟨statement, hprogram, hiff⟩ := exists_readProgram_constructorText hread hself htab
  refine ⟨module, statement, hread, htab, hprogram, hiff.mpr ?_⟩
  rw [hnames]
  decide

/-- A name that is the word for a backslash comes back as a backslash. -/
theorem readProgram_backslashWord : ∃ module statement, readModule backslashWord = .ok module ∧
    module.literals = [] ∧
      readProgram (module.constructorText Style.program) = .ok (Node.ofModule [statement]) ∧
        statement.alike (· == ·) (constructorCall module) = false := by
  have heval : ((readModule backslashWord).toOption.bind fun module =>
      (readProgram (module.constructorText Style.program)).toOption.map fun program =>
        (module.literals, program.args.map fun s => s.alike (· == ·) (constructorCall module))) =
      some ([], [false]) := by
    decide +kernel
  cases hread : readModule backslashWord with
  | error e =>
    rw [hread] at heval
    cases heval
  | ok module =>
    rw [hread] at heval
    cases hprogram : readProgram (module.constructorText Style.program) with
    | error e =>
      simp only [Except.toOption, Option.bind_some, hprogram] at heval
      cases heval
    | ok program =>
      simp only [Except.toOption, Option.bind_some, hprogram, Option.map_some, Option.some.injEq,
        Prod.mk.injEq] at heval
      obtain ⟨hliterals, hargs⟩ := heval
      obtain ⟨statement, hstatement, -⟩ :=
        exists_readProgram_of_grammatical (grammatical_of_readModule hread).1
        (by rw [hliterals]; exact nofun)
      rw [hprogram, Except.ok.injEq] at hstatement
      subst hstatement
      exact ⟨module, statement, rfl, hliterals, hprogram, (List.cons.inj hargs).1⟩

end Cppward.Source
