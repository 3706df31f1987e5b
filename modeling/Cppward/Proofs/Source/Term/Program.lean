import Cppward.Proofs.Source.Term.Expression

namespace Cppward.Source

open Grammar Layout Text List Node

/-!
# Programs of terms

* `tidy_chars` — nothing in the text of a term means anything to the layout.
* `readProgram_print` — the program of a printed term is the term.
-/

variable {t : Term} {s : String} {o : Operator} {x : Char} {u cs : List Char}
variable {c : Cursor} {n : Nat}

/-! ### Lines -/

/-- A text that may stand in a line: what stands in it means nothing to the layout, no branch word is
    in it if no word goes on behind it, and it ends with no blank. -/
structure Tidy (u : List Char) : Prop where
  passes : Passes u
  quiet : ∀ p rest, (∀ d ∈ rest.head?, isWordChar d = false) → (∀ q, Quiet q rest) →
    Quiet p (u ++ rest)
  chars : ∀ d ∈ u, isWordChar d = true ∨ d ∈ termMarks
  last : ∃ d, u.getLast? = some d ∧ isBlank d = false

theorem of_termChar {d : Char} (h : isWordChar d = true ∨ d ∈ termMarks) :
    d ≠ '"' ∧ d ≠ '\'' ∧ d ≠ '\n' ∧ d ≠ '\t' ∧ d ≠ '\\' := by
  have hmarks := (by decide : ∀ x ∈ ['"', '\'', '\n', '\t', '\\'],
    isWordChar x = false ∧ x ∉ termMarks)
  have hne : ∀ x ∈ ['"', '\'', '\n', '\t', '\\'], d ≠ x := by
    rintro x hx rfl
    rcases h with h | h
    · rw [(hmarks d hx).1] at h
      cases h
    · exact (hmarks d hx).2 h
  simpa using hne

theorem quiet_plains {rest : List Char}
    (h : ∀ d ∈ u, (isWordChar d = true ∨ d ∈ termMarks) ∧ d ≠ 'e') (hrest : ∀ q, Quiet q rest)
    (p : Option Char) : Quiet p (u ++ rest) := by
  induction u generalizing p with
  | nil => exact hrest p
  | cons d u ih =>
    obtain ⟨⟨hd, he⟩, hu⟩ := forall_mem_cons.mp h
    obtain ⟨hquote, hsingle, -⟩ := of_termChar hd
    exact .plain hquote hsingle (unbranched_of_start (.inl he)) (ih hu _)

theorem exists_getLast? (hne : u ≠ []) (h : ∀ d ∈ u, isBlank d = false) :
    ∃ d, u.getLast? = some d ∧ isBlank d = false :=
  ⟨u.getLast hne, getLast?_eq_some_getLast hne, h _ (getLast_mem hne)⟩

theorem tidy_name (s : { s : String // isTermName s = true }) : Tidy s.val.toList := by
  obtain ⟨x, cs, hlist, -, -, hkeyword, hword⟩ := exists_cons_of_isTermName s.property
  rw [hlist]
  refine ⟨.plains fun d hd => not_mem_specials_of_isWordChar (hword d hd), fun p rest hstop hrest => ?_,
    fun d hd => .inl (hword d hd),
    exists_getLast? (cons_ne_nil x cs) fun d hd => isBlank_of_isWordChar (hword d hd)⟩
  refine quiet_word hword (fun c _ hc w hw => ?_) fun q _ => hrest q
  -- a branch word is a keyword, so that the name is another word
  have hwords := (by decide : ∀ w ∈ branchWords,
    (∀ d ∈ w, isWordChar d = true) ∧ String.ofList w ∈ keywords) w hw
  refine isAtWord_of_ne hword hwords.1 (fun heq => hkeyword ?_) hstop c hc
  rw [← String.ofList_toList (s := s.val), hlist, heq]
  exact hwords.2

theorem tidy_number (s : { s : String // isTermNumber s = true }) : Tidy s.val.toList := by
  obtain ⟨x, cs, hlist, hdigits⟩ := exists_cons_of_isTermNumber s.property
  rw [hlist]
  have hword : ∀ d ∈ x :: cs, isWordChar d = true := fun d hd => by
    simp [isWordChar, Char.isAlphanum, hdigits d hd]
  refine ⟨.plains fun d hd => not_mem_specials_of_isWordChar (hword d hd), fun p rest _ hrest => ?_,
    fun d hd => .inl (hword d hd),
    exists_getLast? (cons_ne_nil x cs) fun d hd => isBlank_of_isWordChar (hword d hd)⟩
  refine quiet_plains (fun d hd => ⟨.inl (hword d hd), ?_⟩) hrest p
  rintro rfl
  exact absurd (hdigits _ hd) (by decide)

theorem tidy_operator (h : o ∈ leadingOperators ++ joiningOperators) : Tidy o.text.toList := by
  have hplain := (by decide : ∀ o ∈ leadingOperators ++ joiningOperators,
    ∀ d ∈ o.text.toList, d ∉ specials ∧ isBlank d = false) o h
  obtain ⟨⟨x, cs, hlist, -⟩, hchars⟩ := operator_chars h
  exact ⟨.plains fun d hd => (hplain d hd).1, fun p _ _ hrest => quiet_plains hchars hrest p,
    fun d hd => (hchars d hd).1, exists_getLast? (by simp [hlist]) fun d hd => (hplain d hd).2⟩

theorem Tidy.paren {u : List Char} (h : Tidy u) : Tidy ('(' :: ' ' :: (u ++ [' ', ')'])) := by
  have hblank : Passes [' '] := .plain (by decide)
  refine ⟨?_, fun p rest _ hrest => ?_, ?_, ?_⟩
  · have hinner : Passes ('(' :: ([' '] ++ u ++ [' '] ++ [')'])) :=
      ((hblank.append h.passes).append hblank).bracket rfl rfl
    simpa using hinner
  · have hend : ∀ q, Quiet q (' ' :: ')' :: rest) := quiet_plains (u := [' ', ')']) (by decide) hrest
    have hquiet := quiet_plains (u := ['(', ' ']) (by decide)
      (fun q => h.quiet q (' ' :: ')' :: rest) (by rintro _ ⟨⟩; decide) hend) p
    simpa using hquiet
  · rw [forall_mem_cons, forall_mem_cons, forall_mem_append]
    exact ⟨by decide, by decide, h.chars, by decide⟩
  · exact ⟨')', by simp [getLast?_cons], by decide⟩

theorem Tidy.append {v : List Char} (hu : Tidy u) (hv : Tidy v) : Tidy (u ++ ' ' :: v) := by
  have hblank : Passes [' '] := .plain (by decide)
  refine ⟨?_, fun p rest hstop hrest => ?_, ?_, ?_⟩
  · exact hu.passes.append (hblank.append hv.passes)
  · rw [append_assoc]
    refine hu.quiet p _ (by rintro _ ⟨⟩; decide) fun q => ?_
    exact quiet_plains (u := [' ']) (by decide) (fun q => hv.quiet q rest hstop hrest) q
  · rw [forall_mem_append, forall_mem_cons]
    exact ⟨hu.chars, by decide, hv.chars⟩
  · obtain ⟨d, hd, hlast⟩ := hv.last
    refine ⟨d, ?_, hlast⟩
    rw [getLast?_append, getLast?_cons, hd]
    rfl

theorem Tidy.operand (h : Tidy t.chars) : Tidy t.operandChars := by
  cases hcompound : t.isCompound with
  | false => exact Term.operandChars_of_leaf hcompound ▸ h
  | true => exact Term.operandChars_of_compound hcompound ▸ h.paren

theorem tidy_chars (t : Term) : Tidy t.chars := by
  induction t with
  | name s => exact tidy_name s
  | number s => exact tidy_number s
  | signed op arg ih =>
    rw [Term.chars_signed]
    exact (tidy_operator (mem_append_left _ op.property)).append ih.operand
  | joined op lhs rhs ihl ihr =>
    rw [Term.chars_joined]
    exact ihl.operand.append
      ((tidy_operator (mem_append_right _ op.property)).append ihr.operand)

theorem isLine_chars (t : Term) : IsLine t.chars where
  passes := (tidy_chars t).passes
  quiet := (tidy_chars t).quiet none [';'] (by rintro _ ⟨⟩; decide) fun q =>
    .plain (by decide) (by decide) (unbranched_of_start (.inl (by decide))) .nil
  newline := fun h => (of_termChar ((tidy_chars t).chars _ h)).2.2.1 rfl
  tab := fun h => (of_termChar ((tidy_chars t).chars _ h)).2.2.2.1 rfl
  head := t.exists_chars_eq_cons
  last := by
    obtain ⟨d, hd, hlast⟩ := (tidy_chars t).last
    rw [hd]
    rintro _ ⟨⟩
    exact hlast

theorem hideEscapes_chars (t : Term) : hideEscapes t.chars = t.chars := by
  have hback : '\\' ∉ t.chars := fun h => (of_termChar ((tidy_chars t).chars _ h)).2.2.2.2 rfl
  simp only [hideEscapes, (Replaces.plain hback).eq]

/-! ### Programs -/

/-- A tree that is read has the kinds of a tree that it is like, and no others. -/
theorem exists_kind_of_alike {m n : Node} (hm : m.Grammatical) (h : m.alike (· == ·) n = true) :
    ∀ x ∈ m.walk, ∃ y ∈ n.walk, x.kind = y.kind := by
  induction hm generalizing n with
  | @make kind func args loc _ _ _ ihfunc ihargs =>
    obtain ⟨hkind, hfunc, hargs⟩ := (alike_iff _ n).mp h
    rw [alikeList_iff] at hfunc hargs
    intro x hx
    rw [walk_eq] at hx
    rcases mem_cons.mp hx with rfl | hx
    · exact ⟨n, n.self_mem_walk, beq_iff_eq.mp hkind⟩
    obtain ⟨part, hpart, hx⟩ := mem_flatMap.mp hx
    simp only [Node.parts, make, Option.toList_none, append_nil, mem_append,
      Option.mem_toList] at hpart
    rcases hpart with hpart | hpart
    · obtain ⟨f, hf, halike⟩ := Failing.exists_mem_of_forall₂ hfunc.flip (Option.mem_toList.mpr hpart)
      obtain ⟨y, hy, heq⟩ := ihfunc part hpart halike x hx
      exact ⟨y, mem_walk_of_mem_parts (func_mem_parts (Option.mem_toList.mp hf)) hy, heq⟩
    · obtain ⟨a, ha, halike⟩ := Failing.exists_mem_of_forall₂ hargs.flip hpart
      obtain ⟨y, hy, heq⟩ := ihargs part hpart halike x hx
      exact ⟨y, mem_walk_of_mem_parts (arg_mem_parts ha) hy, heq⟩

theorem kind_ne_parens (t : Term) : ∀ n ∈ t.tree.walk, n.kind ≠ .parens := by
  induction t with
  | name s | number s => exact forall_mem_walk_make.mpr ⟨nofun, nofun, nofun⟩
  | signed op arg ih => exact forall_mem_walk_make.mpr ⟨nofun, nofun, forall_mem_singleton.mpr ih⟩
  | joined op lhs rhs ihl ihr =>
    exact forall_mem_walk_make.mpr ⟨nofun, nofun, forall_mem_cons.mpr ⟨ihl, forall_mem_singleton.mpr ihr⟩⟩

theorem isCallOf_term (t : Term) (word : String) : t.tree.isCallOf word = false := by
  cases t <;> rfl

/-- **Reading inverts printing.**  The program of a printed term has one statement.  This is the tree
    of the term, with the classes and the order of its operands, and no parentheses are left. -/
theorem readProgram_print (t : Term) :
    ∃ m, readProgram t.print = .ok (Node.ofModule [m]) ∧ m.alike (· == ·) t.tree = true ∧
      ∀ n ∈ m.walk, n.kind ≠ .parens := by
  have hread : ReadsAt (expression (t.chars.length + 2)) { rest := t.chars ++ [';'] }
      (Denotes · t.tree) [';'] := by
    refine readsTerm_expression t _ (Nat.le_add_right _ 2) _ _ ?_ ?_ ⟨[], .inr rfl⟩
    · exact Cursor.isClear_of_prev rfl
    · exact dropWhile_of_isBlank t.exists_chars_eq_cons _
  obtain ⟨m, hmodule, halike⟩ :=
    readModule_of_line (hideEscapes_chars t) (isLine_chars t) hread (isCallOf_term t _)
  have hinclude : m.isCallOf "include" = false := by
    rw [isCallOf_of_alike halike, isCallOf_term]
  refine ⟨m, readProgram_of_readModule hmodule hinclude, halike, fun n hn => ?_⟩
  have hgrammatical := (grammatical_of_readModule hmodule).1.args m (List.mem_singleton_self m)
  obtain ⟨n', hn', hkind⟩ := exists_kind_of_alike hgrammatical halike n hn
  exact hkind ▸ kind_ne_parens t n' hn'

end Cppward.Source
