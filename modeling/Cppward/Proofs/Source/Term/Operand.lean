import Cppward.Proofs.Source.Term.Basic

namespace Cppward.Source

open Grammar Layout Text List Node

/-!
# Operands of terms

* `Follows` — the texts that may stand behind an operand.
* `bars_operand` — an operand does not start with an operator.
* `reads_operand_term` — operands are read before such texts.
-/

variable {t : Term} {s : String} {o : Operator} {x : Char} {u cs : List Char}

/-! ### Where operands start and end -/

variable {text rest : List Char} {self : Reader Node}

/-- The text may stand behind an operand. -/
structure Follows (rest : List Char) : Prop where
  stop : ∃ x ∈ [' ', ';'], rest.head? = some x
  opens : ∀ x ∈ ['(', '[', '\x7b', '<'], x ∉ lead rest
  chain : Bars (operatorsOf chainLevels) rest

/-- The text may stand behind a whole term. -/
def Finishes (rest : List Char) : Prop := ∃ r, rest = ' ' :: ')' :: r ∨ rest = ';' :: r

theorem Finishes.lead (h : Finishes rest) : ∃ x ∈ [')', ';'], lead rest = some x := by
  obtain ⟨r, rfl | rfl⟩ := h
  · exact ⟨')', by decide, rfl⟩
  · exact ⟨';', by decide, rfl⟩

theorem Finishes.bars (h : Finishes rest) : Bars allOperators rest := by
  obtain ⟨x, hx, hlead⟩ := h.lead
  refine bars_of_lead ?_
  rw [hlead]
  exact (by decide : ∀ x ∈ [')', ';'], allOperators.any (Operator.mayStart (some x)) = false) x hx

theorem Finishes.follows (h : Finishes rest) : Follows rest where
  stop := by
    obtain ⟨r, rfl | rfl⟩ := h
    · exact ⟨' ', by decide, rfl⟩
    · exact ⟨';', by decide, rfl⟩
  opens := by
    obtain ⟨x, hx, hlead⟩ := h.lead
    rw [hlead]
    rintro y hy ⟨⟩
    exact (by decide : ∀ x ∈ [')', ';'], x ∉ ['(', '[', '\x7b', '<']) x hx hy
  chain := h.bars.subset subset_chainLevels

theorem Follows.stops (h : Follows rest) : ∀ d ∈ rest.head?, isWordChar d = false ∧ d ≠ '"' ∧
    d ≠ '\'' ∧ isDecimal d = false ∧ d ≠ '.' := by
  obtain ⟨x, hx, hhead⟩ := h.stop
  rw [hhead]
  rintro _ ⟨⟩
  exact (by decide : ∀ x ∈ [' ', ';'], isWordChar x = false ∧ x ≠ '"' ∧ x ≠ '\'' ∧
    isDecimal x = false ∧ x ≠ '.') x hx

theorem Follows.refuses_application (h : Follows rest) : Refuses (Reader.application self) rest :=
  Source.refuses_application fun x hx => h.opens x
    ((by decide : ∀ x ∈ ['(', '[', '\x7b'], x ∈ ['(', '[', '\x7b', '<']) x hx)

/-- The operator is a keyword, or starts with a character that no operand starts with. -/
def startsApart : Operator → Bool
  | .word w => keywords.contains w && w.toList.all fun d => isWordChar d && !d.isDigit
  | .symbol s => s.toList.head?.any fun y => !isWordChar y && y != '('

theorem allOperators_cases (h : o ∈ allOperators) :
    (∃ w ∈ keywords, o = .word w ∧ ∀ d ∈ w.toList, isWordChar d = true ∧ d.isDigit = false) ∨
      ∃ y ∈ o.text.toList.head?, isWordChar y = false ∧ y ≠ '(' := by
  have hall : allOperators.all startsApart = true := by decide
  have hapart := all_eq_true.mp hall o h
  cases o with
  | word w =>
    simp only [startsApart, Bool.and_eq_true, contains_iff_mem, all_eq_true,
      Bool.not_eq_true'] at hapart
    exact .inl ⟨w, hapart.1, rfl, hapart.2⟩
  | symbol s =>
    simp only [startsApart, Option.any_eq_true_iff_get, Bool.and_eq_true, bne_iff_ne,
      Bool.not_eq_true'] at hapart
    obtain ⟨hsome, hy⟩ := hapart
    exact .inr ⟨_, Option.get_mem hsome, hy⟩

theorem refuses_operator_of_lead {y : Char} (hy : y ∈ o.text.toList.head?)
    (hx : lead text = some x) (hne : y ≠ x) : Refuses (Reader.operator o) text := by
  have hstart : [o].any (Operator.mayStart (lead text)) = false := by
    cases hlist : o.text.toList with
    | nil => simp [hlist] at hy
    | cons z zs =>
      obtain rfl : z = y := by simpa [hlist] using hy
      simp [Operator.mayStart, hlist, hx, hne, List.isPrefixOf]
  exact bars_of_lead hstart o (mem_singleton_self o)

/-- No operator stands where an operand starts. -/
theorem bars_operand (htext : text.dropWhile isGap = t.operandChars ++ rest)
    (hrest : Follows rest) : Bars allOperators text := by
  have hbars : ∀ x cs, text.dropWhile isGap = x :: cs → (x = '(' ∨ x.isDigit = true) →
      Bars allOperators text := by
    intro x cs hstart hx o ho
    have hlead : lead text = some x := by rw [lead, hstart, head?_cons]
    rcases allOperators_cases ho with ⟨w, hw, rfl, hletters⟩ | ⟨y, hy, hword, hparen⟩
    · -- a keyword starts with a letter
      obtain ⟨y, ys, hys⟩ : ∃ y ys, w.toList = y :: ys :=
        exists_cons_of_ne_nil ((by decide : ∀ w ∈ keywords, w.toList ≠ []) w hw)
      have hy := hletters y (by simp [hys])
      refine refuses_operator_of_lead (o := .word w) (y := y) (by simp [Operator.text, hys]) hlead ?_
      rintro rfl
      rcases hx with rfl | hx
      · exact absurd hy.1 (by decide)
      · rw [hy.2] at hx
        cases hx
    · refine refuses_operator_of_lead hy hlead ?_
      rintro rfl
      rcases hx with rfl | hx
      · exact hparen rfl
      · have halnum : isWordChar y = true := by simp [isWordChar, Char.isAlphanum, hx]
        rw [halnum] at hword
        cases hword
  cases t with
  | name s =>
    obtain ⟨x, cs, hlist, -, -, hkeyword, hchars⟩ := exists_cons_of_isTermName s.property
    have hstart : text.dropWhile isGap = (x :: cs) ++ rest := by
      rw [htext, Term.operandChars_of_leaf rfl]
      exact congrArg (· ++ rest) hlist
    intro o ho
    rcases allOperators_cases ho with ⟨w, hw, rfl, hletters⟩ | ⟨y, hy, hword, -⟩
    · -- the name is no keyword, so a keyword is at most the start of it
      have hne : x :: cs ≠ w.toList := by
        intro heq
        rw [← hlist, String.toList_inj] at heq
        exact hkeyword (heq ▸ hw)
      exact (refuses_word_of_ne hstart hchars (fun d hd => (hletters d hd).1) hne
        fun d hd => (hrest.stops d hd).1).bind
    · refine refuses_operator_of_lead hy (x := x) (by rw [lead, hstart]; rfl) ?_
      rintro rfl
      rw [hchars y (by simp)] at hword
      cases hword
  | number s =>
    obtain ⟨x, cs, hlist, hdigits⟩ := exists_cons_of_isTermNumber s.property
    refine hbars x (cs ++ rest) ?_ (.inr (hdigits x (by simp)))
    rw [htext, Term.operandChars_of_leaf rfl]
    exact congrArg (· ++ rest) hlist
  | signed op arg | joined op lhs rhs =>
    rw [Term.operandChars_of_compound rfl, cons_append] at htext
    exact hbars '(' _ htext (.inl rfl)

/-! ### Operands -/

theorem reads_run1 {p : Char → Bool} (h : ∀ d ∈ x :: cs, p d = true)
    (hrest : ∀ d ∈ rest.head?, p d = false) :
    Reads (Reader.run1 p) (x :: cs ++ rest) (· = x :: cs) rest := by
  intro c hc
  have htaken : c.rest.takeWhile p = x :: cs := by
    rw [hc, takeWhile_append_of_pos h]
    cases rest with
    | nil => exact append_nil _
    | cons d rest =>
      rw [takeWhile_cons_of_neg (by rw [hrest d rfl]; exact Bool.false_ne_true),
        append_nil]
  refine ⟨x :: cs, c.advance (x :: cs).length, ?_, rfl, ?_⟩
  · rw [Reader.run1, htaken]
    rfl
  · rw [Cursor.advance_eq hc]

/-- Digits are read as a number. -/
theorem reads_operand_number
    (htext : text.dropWhile isGap = x :: cs ++ rest) (hdigits : ∀ d ∈ x :: cs, d.isDigit = true)
    (hstart : Bars allOperators text) (hrest : Follows rest) : Reads (Reader.operand self) text
      (fun n => ∃ loc, n = ofDigits (String.ofList (x :: cs)) loc) rest := by
  have hx := hdigits x (by simp)
  have hdecimal : ∀ d ∈ x :: cs, isDecimal d = true := fun d hd =>
    isDecimal_of_isDigit (hdigits d hd)
  have hstop := hrest.stops
  have hlead : ∀ y ∈ lead text, isNameStart y = false ∧ y ∉ ['"', '\'', '[', '\x7b', '('] := by
    rw [lead, htext]
    rintro _ ⟨⟩
    exact of_decide_eq_true (of_isDigit (fun y => decide (isNameStart y = false ∧
      y ∉ ['"', '\'', '[', '\x7b', '('])) (by decide) hx)
  have hrun : Reads (Reader.run1 isDecimal) (text.dropWhile isGap) (· = x :: cs) rest :=
    htext ▸ reads_run1 hdecimal fun d hd => (hstop d hd).2.2.2.1
  -- the readers that come before that of integers refuse the text
  have happlied : Refuses (Reader.applied self) text :=
    reads_offset.bind_refuses fun _ _ =>
      ((refuses_atom_of_lead hlead).readLevels (hstart.subset subset_chainLevels)).bind
  have hpoint : Refuses (Reader.exactly ['.']) rest := by
    refine refuses_exactly ?_
    cases rest with
    | nil => rfl
    | cons d rest =>
      have := (hstop d rfl).2.2.2.2
      simp [List.isPrefixOf, Ne.symm this]
  have hfloat : Refuses Reader.float text :=
    reads_offset.bind_refuses fun _ _ => reads_gaps.bind_refuses fun _ _ =>
      hrun.bind_refuses fun _ _ => hpoint.bind
  -- no suffix follows the digits
  have hsuffix : Refuses Reader.identHere rest := by
    refine refuses_identHere fun d hd => ?_
    by_contra hname
    rw [Bool.not_eq_false] at hname
    have := isWordChar_of_isNameStart hname
    rw [(hstop d hd).1] at this
    cases this
  refine happlied.orElse_reads (hfloat.orElse_reads (Reads.orElse ?_))
  refine reads_offset.bind fun loc _ => reads_gaps.bind fun _ _ => hrun.bind fun ds hds => ?_
  refine hsuffix.attempt.bind fun o ho => ?_
  subst hds ho
  exact .pure ⟨loc, rfl⟩

/-- Parentheses are read as what they hold. -/
theorem reads_atom_paren {P : Node → Prop} {mid mid' : List Char}
    (htext : text.dropWhile isGap = '(' :: mid) (hself : Reads self mid P mid')
    (hmid : mid'.dropWhile isGap = ')' :: rest) (hrest : Follows rest) :
    Reads (Reader.atom self) text P rest := by
  have hlead : lead text = some '(' := by rw [lead, htext, head?_cons]
  have hlit : ∀ q, '(' ≠ q → Refuses (Reader.literal q) text := by
    intro q hq
    refine refuses_literal fun x hx => ?_
    obtain rfl : '(' = x := Option.some.inj (hlead.symm.trans hx)
    exact ⟨by decide, hq⟩
  have hident : Refuses Reader.ident text := by
    refine refuses_ident fun x hx => ?_
    obtain rfl : '(' = x := Option.some.inj (hlead.symm.trans hx)
    decide
  have hopen : ∀ {s : String} {x : Char} {xs : List Char}, s.toList = x :: xs → x ≠ '(' →
      Refuses (Reader.symbol s) text := by
    intro s x xs hs hne
    refine refuses_symbol_of_lead hs ?_
    rw [hlead]
    rintro ⟨⟩
    exact hne rfl
  have hargs : Refuses (Reader.templateArgs self) rest :=
    (refuses_symbol_of_lead rfl (hrest.opens '<' (by decide))).bind
  -- literals, names, lists and braces are tried first
  refine (hlit '"' (by decide)).orElse_reads ((hlit '\'' (by decide)).orElse_reads ?_)
  refine (Refuses.bind hident).orElse_reads ?_
  refine (reads_offset.bind_refuses fun _ _ => (hopen rfl (by decide)).bind).orElse_reads ?_
  refine (reads_offset.bind_refuses fun _ _ => (hopen rfl (by decide)).bind).orElse_reads ?_
  refine reads_offset.bind fun loc _ => (reads_symbol (s := "(") htext).bind fun _ _ => ?_
  refine hself.attempt.bind ?_
  rintro _ ⟨e, rfl, he⟩
  refine (reads_symbol (s := ")") hmid).attempt.bind ?_
  rintro _ ⟨_, rfl, -⟩
  refine hargs.attempt.bind fun o ho => ?_
  subst ho
  exact .pure he

/-- The reader takes the text of a term for its tree, where no word stands right before it. -/
def ReadsTerm (self : Reader Node) (t : Term) : Prop :=
  ∀ (c : Cursor) (rest : List Char), c.IsClear → c.rest.dropWhile isGap = t.chars ++ rest →
    Finishes rest → ReadsAt self c (Denotes · t.tree) rest

/-- Names and numbers are read back. -/
theorem reads_operand_leaf (hleaf : t.isCompound = false)
    (htext : text.dropWhile isGap = t.operandChars ++ rest) (hrest : Follows rest) :
    Reads (Reader.operand self) text (DenotesOperand · t.tree) rest := by
  have hstart := bars_operand htext hrest
  rw [Term.operandChars_of_leaf hleaf] at htext
  cases t with
  | name s =>
    obtain ⟨x, cs, hlist, hx, hcs, hkeyword, -⟩ := exists_cons_of_isTermName s.property
    have htext : text.dropWhile isGap = x :: (cs ++ rest) :=
      htext.trans (congrArg (· ++ rest) hlist)
    have hword : ∀ w ∈ reservedWords, w.toList ≠ x :: cs := by
      intro w hw heq
      rw [← hlist, String.toList_inj] at heq
      exact hkeyword (heq ▸ (by decide : ∀ w ∈ reservedWords, w ∈ keywords) w hw)
    have hatom : Reads (Reader.atom self) text
        (fun n => ∃ loc, n = ident (String.ofList (x :: cs)) loc) rest :=
      reads_atom_name htext hx hcs hword (fun d hd => ⟨(hrest.stops d hd).1,
        (hrest.stops d hd).2.1, (hrest.stops d hd).2.2.1⟩) (hrest.opens '<' (by decide))
    refine (reads_operand hatom hstart hrest.chain hrest.refuses_application).mono ?_
    rintro _ ⟨loc, rfl⟩
    rw [← hlist, String.ofList_toList]
    exact ⟨denotes_ident _ loc, nofun⟩
  | number s =>
    obtain ⟨x, cs, hlist, hdigits⟩ := exists_cons_of_isTermNumber s.property
    have htext : text.dropWhile isGap = x :: cs ++ rest :=
      htext.trans (congrArg (· ++ rest) hlist)
    refine (reads_operand_number htext hdigits hstart hrest).mono ?_
    rintro _ ⟨loc, rfl⟩
    rw [← hlist, String.ofList_toList]
    exact ⟨denotes_make nofun .nil .nil, nofun⟩
  | signed op arg | joined op lhs rhs => cases hleaf

/-- An operand is read, if terms in parentheses are. -/
theorem reads_operand_term (hself : t.isCompound = true → ReadsTerm self t)
    (htext : text.dropWhile isGap = t.operandChars ++ rest) (hrest : Follows rest) :
    Reads (Reader.operand self) text (Denotes · t.tree) rest := by
  cases hcompound : t.isCompound with
  | false => exact (reads_operand_leaf hcompound htext hrest).mono fun _ hn => hn.1
  | true =>
    have hstart := bars_operand htext hrest
    have hinner : Reads self (' ' :: (t.chars ++ ' ' :: ')' :: rest)) (Denotes · t.tree)
        (' ' :: ')' :: rest) := by
      intro c hc
      refine hself hcompound c _ (c.isClear_of_gap (by decide) hc) ?_ ⟨rest, .inl rfl⟩
      rw [hc]
      exact dropWhile_space t.exists_chars_eq_cons _
    rw [Term.operandChars_of_compound hcompound] at htext
    have htext : text.dropWhile isGap = '(' :: ' ' :: (t.chars ++ ' ' :: ')' :: rest) := by
      simpa using htext
    exact reads_operand (reads_atom_paren htext hinner rfl hrest) hstart hrest.chain
      hrest.refuses_application

end Cppward.Source
