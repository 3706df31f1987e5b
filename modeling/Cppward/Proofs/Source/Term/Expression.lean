import Cppward.Proofs.Source.Term.Operand

namespace Cppward.Source

open Grammar Layout Text List Node

/-!
# Terms are read as expressions

The operands of a term are in parentheses, so the precedence of its operators plays no role.

* `exists_joining_level`, `exists_leading_level` — the level of an operator, and why no other level
  takes the operator for one of its own.
* `readsTerm_expression` — a reader of expressions takes the text of a term for its tree, by induction
  on the term.
-/

variable {t : Term} {s : String} {o : Operator} {x : Char} {u cs : List Char}
variable {text rest : List Char} {self : Reader Node}

/-! ### Operators and their levels -/

/-- The operator does not stand where the other one stands with a blank behind it. -/
def avoids (o : Operator) (other : Operator) : Bool :=
  !o.text.toList.isPrefixOf (other.text.toList ++ [' ']) &&
    !(other.text.toList ++ [' ']).isPrefixOf o.text.toList

theorem refuses_of_avoids {other : Operator} (h : avoids o other = true)
    (htext : text.dropWhile isGap = other.text.toList ++ ' ' :: rest) :
    Refuses (Reader.operator o) text := by
  rw [avoids, Bool.and_eq_true, Bool.not_eq_true', Bool.not_eq_true'] at h
  refine refuses_operator (Bool.eq_false_iff.mpr fun hprefix => ?_)
  rw [htext, List.isPrefixOf_iff_prefix] at hprefix
  have hother : other.text.toList ++ [' '] <+: other.text.toList ++ ' ' :: rest :=
    ⟨rest, by simp⟩
  -- of two starts of one text, one is a start of the other
  rcases prefix_or_prefix_of_prefix hprefix hother with hstart | hstart
  · rw [List.isPrefixOf_iff_prefix.mpr hstart] at h
    cases h.1
  · rw [List.isPrefixOf_iff_prefix.mpr hstart] at h
    cases h.2

/-- An operator is read where no word stands right before it. -/
theorem readsAt_operator {c : Cursor} (hclear : c.IsClear)
    (htext : c.rest.dropWhile isGap = o.text.toList ++ ' ' :: rest) :
    ReadsAt (Reader.operator o) c (· = o.text) (' ' :: rest) := by
  cases o with
  | symbol s =>
    have hsymbol : Reads (Reader.symbol s) c.rest (fun _ => True) (' ' :: rest) :=
      reads_symbol htext
    exact (hsymbol c rfl).bind fun _ _ => .pure rfl
  | word s =>
    have hrest : c.skipGaps.rest = s.toList ++ ' ' :: rest := by
      obtain ⟨gaps, hgaps, -, heq⟩ := c.skipGaps_eq
      rw [heq, Cursor.advance_eq hgaps, htext]
      rfl
    have hat : c.skipGaps.isAtWord s.toList = true := by
      rw [Cursor.isAtWord, hrest, Bool.and_eq_true, Bool.and_eq_true, drop_left,
        List.isPrefixOf_iff_prefix]
      refine ⟨⟨prefix_append .., rfl⟩, ?_⟩
      rw [Cursor.IsClear] at hclear
      cases hprev : c.skipGaps.prev with
      | none => rfl
      | some x => simpa [hprev] using hclear
    have hword : ReadsAt (Reader.word s) c (fun _ => True) (' ' :: rest) := by
      refine ⟨(), c.skipGaps.advance s.toList.length, ?_, trivial, ?_⟩
      · change Reader.bind Reader.gaps (fun _ => Reader.wordHere s) c = _
        simp only [Reader.bind, Reader.gaps, Reader.wordHere, hat, if_true, Bool.or_self]
      · rw [Cursor.advance_eq hrest]
    exact hword.bind fun _ _ => .pure rfl

/-- The place of the level in which the operator has the fixity. -/
def placeOf (fixity : Fixity) (o : Operator) : Nat :=
  expressionLevels.findIdx fun level => level.fixity == fixity && level.operators.contains o

/-- At its place, the operator is not taken for another one of the level. -/
def isAtPlace (fixity : Fixity) (o : Operator) : Bool :=
  match expressionLevels[placeOf fixity o]? with
  | none => false
  | some level =>
    level.fixity == fixity && !level.isForbidden && level.operators.contains o &&
      level.operators.all fun o' => o' == o || avoids o' o

theorem exists_level {fixity : Fixity} (h : isAtPlace fixity o = true) :
    ∃ level, expressionLevels = expressionLevels.take (placeOf fixity o) ++
        level :: expressionLevels.drop (placeOf fixity o + 1) ∧
      level.fixity = fixity ∧ level.isForbidden = false ∧ o ∈ level.operators ∧
      ∀ o' ∈ level.operators, o' ≠ o → avoids o' o = true := by
  rw [isAtPlace] at h
  split at h
  · cases h
  · next level hlevel =>
    obtain ⟨hlt, hget⟩ := List.getElem?_eq_some_iff.mp hlevel
    simp only [Bool.and_eq_true, beq_iff_eq, Bool.not_eq_true', contains_iff_mem,
      all_eq_true, Bool.or_eq_true] at h
    obtain ⟨⟨⟨hfixity, hallowed⟩, hmem⟩, hothers⟩ := h
    refine ⟨level, ?_, hfixity, hallowed, hmem, fun o' ho' hne => (hothers o' ho').resolve_left hne⟩
    rw [← hget, ← drop_eq_getElem_cons hlt, take_append_drop]

/-- The level of an operator between operands.  No tighter level takes it for one of its own. -/
theorem exists_joining_level (h : o ∈ joiningOperators) :
    ∃ tight level loose, expressionLevels = tight ++ level :: loose ∧ level.fixity = .left ∧
      level.isForbidden = false ∧ o ∈ level.operators ∧
      (∀ o' ∈ level.operators, o' ≠ o → avoids o' o = true) ∧
      ∀ o' ∈ operatorsOf chainLevels ++ trailingOf tight, avoids o' o = true := by
  obtain ⟨level, hlevels, hfixity, hallowed, hmem, hothers⟩ :=
    exists_level ((by decide : ∀ o ∈ joiningOperators, isAtPlace .left o = true) o h)
  have htight := (by decide : ∀ o ∈ joiningOperators, ∀ o' ∈ operatorsOf chainLevels ++
    trailingOf (expressionLevels.take (placeOf .left o)), avoids o' o = true) o h
  exact ⟨_, level, _, hlevels, hfixity, hallowed, hmem, hothers, htight⟩

/-- The level of an operator before an operand.  No looser level takes it for one of its own. -/
theorem exists_leading_level (h : o ∈ leadingOperators) :
    ∃ tight level loose, expressionLevels = tight ++ level :: loose ∧ level.fixity = .before ∧
      o ∈ level.operators ∧ (∀ o' ∈ level.operators, o' ≠ o → avoids o' o = true) ∧
      ∀ o' ∈ leadingOf loose, avoids o' o = true := by
  obtain ⟨level, hlevels, hfixity, -, hmem, hothers⟩ :=
    exists_level ((by decide : ∀ o ∈ leadingOperators, isAtPlace .before o = true) o h)
  have hloose := (by decide : ∀ o ∈ leadingOperators, ∀ o' ∈
    leadingOf (expressionLevels.drop (placeOf .before o + 1)), avoids o' o = true) o h
  exact ⟨_, level, _, hlevels, hfixity, hmem, hothers, hloose⟩

/-! ### Terms -/

variable {c : Cursor} {n : Nat}

theorem follows_operator (h : o ∈ joiningOperators)
    (hchain : ∀ o' ∈ operatorsOf chainLevels, avoids o' o = true) (rest : List Char) :
    Follows (' ' :: (o.text.toList ++ ' ' :: rest)) := by
  have hdrop := dropWhile_space (operator_chars (mem_append_right _ h)).1 (' ' :: rest)
  refine ⟨⟨' ', by decide, rfl⟩, fun x hx hlead => ?_, fun o' ho' => ?_⟩
  · obtain ⟨y, ys, hlist, -⟩ := (operator_chars (mem_append_right _ h)).1
    rw [lead, hdrop, hlist, cons_append, head?_cons, Option.mem_some_iff] at hlead
    have := (by decide : ∀ o ∈ joiningOperators, ∀ x ∈ ['(', '[', '\x7b', '<'],
      x ∉ o.text.toList.head?) o h x hx
    exact this (by rw [hlist, hlead]; rfl)
  · exact refuses_of_avoids (hchain o' ho') hdrop

section Levels

variable {tight loose : List Level} {level : Level}

theorem operatorsOf_filter_subset {levels : List Level} (h : levels ⊆ expressionLevels)
    (p : Level → Bool) : operatorsOf (levels.filter p) ⊆ allOperators := fun _ ho =>
  subset_expressionLevels
    (operatorsOf_subset (fun _ hl => h (mem_of_mem_filter hl)) ho)

theorem levels_subset (h : expressionLevels = tight ++ level :: loose) :
    tight ⊆ expressionLevels ∧ level.operators ⊆ allOperators ∧ loose ⊆ expressionLevels := by
  have hlevel : level ∈ expressionLevels := by simp [h]
  refine ⟨fun l hl => ?_, fun o ho => ?_, fun l hl => ?_⟩
  · simp [h, hl]
  · exact subset_expressionLevels (mem_flatMap.mpr ⟨level, hlevel, ho⟩)
  · simp [h, hl]

theorem reads_tight (hlevels : expressionLevels = tight ++ level :: loose)
    (hself : t.isCompound = true → ReadsTerm self t)
    (htext : text.dropWhile isGap = t.operandChars ++ rest) (hrest : Follows rest)
    (hend : Bars (trailingOf tight) rest) :
    Reads (readLevels tight (Reader.operand self)) text (Denotes · t.tree) rest := by
  have hstart : Bars (leadingOf tight) text :=
    (bars_operand htext hrest).subset (operatorsOf_filter_subset (levels_subset hlevels).1 _)
  intro c hc
  exact (reads_operand_term hself htext hrest c hc).readLevels (hc ▸ hstart) hend

end Levels

theorem readsAt_expression {tree : Node}
    (h : ReadsAt (readLevels expressionLevels (Reader.operand (expression n))) c
      (DenotesOperand · tree) rest) :
    ReadsAt (expression (n + 1)) c (Denotes · tree) rest :=
  readsAt_offset_bind fun loc => h.bind fun _ hm => .pure (hm.1.wrapper hm.2 loc)

theorem classOf_eq (h : o ∈ joiningOperators) : binaryOf o.text = Term.classOf o.text :=
  (by decide : ∀ o ∈ joiningOperators, binaryOf o.text = Term.classOf o.text) o h

theorem readsTerm_leaf (hleaf : t.isCompound = false) : ReadsTerm (expression (n + 1)) t := by
  intro c rest _ htext hrest
  rw [← Term.operandChars_of_leaf hleaf] at htext
  have hstart := bars_operand htext hrest.follows
  have hread : Reads (readLevels expressionLevels (Reader.operand (expression n))) c.rest
      (DenotesOperand · t.tree) rest :=
    (reads_operand_leaf hleaf htext hrest.follows).readLevels
      (hstart.subset subset_expressionLevels) (hrest.bars.subset subset_expressionLevels)
  exact readsAt_expression (hread c rfl)

/-- A prefix operator and its operand are read back. -/
theorem readsTerm_signed {op : { o : Operator // o ∈ leadingOperators }} {arg : Term}
    (harg : ReadsTerm (expression n) arg) : ReadsTerm (expression (n + 1)) (.signed op arg) := by
  intro c rest hclear htext hrest
  obtain ⟨tight, level, loose, hlevels, hfixity, hmem, hothers, hloose⟩ :=
    exists_leading_level op.property
  obtain ⟨htight, hlevel, hloose'⟩ := levels_subset hlevels
  have htext : c.rest.dropWhile isGap =
      op.val.text.toList ++ ' ' :: (arg.operandChars ++ rest) := by
    rw [htext, Term.chars_signed]
    simp
  have hargText := dropWhile_space arg.exists_operandChars_eq_cons rest
  have hne : c.rest ≠ [] := by
    intro hnil
    obtain ⟨⟨x, cs, hlist, -⟩, -⟩ := operator_chars (mem_append_left _ op.property)
    rw [hnil, hlist] at htext
    cases htext
  -- the level reads the operator, and the tight levels read the operand behind it
  have hop := readsAt_firstOf hmem (readsAt_operator hclear htext)
    fun o' ho' hne => refuses_of_avoids (hothers o' ho' hne) htext
  have hlast := reads_tight hlevels (fun _ => harg) hargText hrest.follows
    (hrest.bars.subset (operatorsOf_filter_subset htight _))
  have hsigned := ReadsAt.signed hfixity hne hop hlast
    ((bars_operand hargText hrest.follows).subset hlevel)
  -- the loose levels find none of their operators at either end
  refine readsAt_expression ?_
  rw [hlevels, readLevels_append]
  refine ReadsAt.mono (hsigned.readLevels (fun o' ho' => refuses_of_avoids (hloose o' ho') htext)
    (hrest.bars.subset (operatorsOf_filter_subset hloose' _))) ?_
  rintro _ ⟨m, loc, rfl, hm⟩
  exact ⟨denotes_make nofun .nil (.cons hm .nil), nofun⟩

/-- A binary operator and its operands are read back. -/
theorem readsTerm_joined {op : { o : Operator // o ∈ joiningOperators }} {lhs rhs : Term}
    (hlhs : ReadsTerm (expression n) lhs) (hrhs : ReadsTerm (expression n) rhs) :
    ReadsTerm (expression (n + 1)) (.joined op lhs rhs) := by
  intro c rest _ htext hrest
  obtain ⟨tight, level, loose, hlevels, hfixity, hallowed, hmem, hothers, havoids⟩ :=
    exists_joining_level op.property
  obtain ⟨htight, hlevel, hloose⟩ := levels_subset hlevels
  have htext : c.rest.dropWhile isGap = lhs.operandChars ++
      ' ' :: (op.val.text.toList ++ ' ' :: (rhs.operandChars ++ rest)) := by
    rw [htext, Term.chars_joined]
    simp
  have hopText := dropWhile_space (operator_chars (mem_append_right _ op.property)).1
    (' ' :: (rhs.operandChars ++ rest))
  have hrhsText := dropWhile_space rhs.exists_operandChars_eq_cons rest
  have hfollows := follows_operator op.property
    (fun o' ho' => havoids o' (mem_append_left _ ho')) (rhs.operandChars ++ rest)
  -- the tight levels read both operands, and the level the operator between them
  have hfirst := reads_tight hlevels (fun _ => hlhs) htext hfollows
    fun o' ho' => refuses_of_avoids (havoids o' (mem_append_right _ ho')) hopText
  have hop : Reads (Reader.firstOf level.operators)
      (' ' :: (op.val.text.toList ++ ' ' :: (rhs.operandChars ++ rest))) (· = op.val.text)
      (' ' :: (rhs.operandChars ++ rest)) := by
    intro c' hc'
    rw [← hc'] at hopText
    exact readsAt_firstOf hmem (readsAt_operator (c'.isClear_of_gap (by decide) hc') hopText)
      fun o' ho' hne => refuses_of_avoids (hothers o' ho' hne) hopText
  have hlast := reads_tight hlevels (fun _ => hrhs) hrhsText hrest.follows
    (hrest.bars.subset (operatorsOf_filter_subset htight _))
  have hjoined := ReadsAt.joined hfixity hallowed (hfirst c rfl) hop hlast
    (hrest.bars.subset hlevel)
  -- the loose levels find none of their operators at either end
  refine readsAt_expression ?_
  rw [hlevels, readLevels_append]
  refine ReadsAt.mono (hjoined.readLevels
    ((bars_operand htext hfollows).subset (operatorsOf_filter_subset hloose _))
    (hrest.bars.subset (operatorsOf_filter_subset hloose _))) ?_
  rintro _ ⟨l, r, loc, rfl, hl, hr⟩
  rw [classOf_eq op.property]
  exact ⟨denotes_make nofun .nil (.cons hl (.cons hr .nil)), nofun⟩

/-- **A term is read back** from its text, whatever may end an expression behind it. -/
theorem readsTerm_expression (t : Term) :
    ∀ n, t.chars.length ≤ n → ReadsTerm (expression n) t := by
  -- each operand is shorter than the term, so that one nesting level less is left for it
  have hsucc : ∀ (t : Term) (n : Nat), t.chars.length ≤ n → ∃ k, n = k + 1 := by
    intro t n hn
    obtain ⟨x, cs, hlist, -⟩ := t.exists_chars_eq_cons
    rw [hlist, length_cons] at hn
    exact ⟨n - 1, by omega⟩
  induction t with
  | name s | number s =>
    intro n hn
    obtain ⟨k, rfl⟩ := hsucc _ n hn
    exact readsTerm_leaf rfl
  | signed op arg ih =>
    intro n hn
    obtain ⟨k, rfl⟩ := hsucc _ n hn
    have harg := arg.length_chars_le
    simp only [Term.chars_signed, length_append, length_cons] at hn
    exact readsTerm_signed (ih k (by omega))
  | joined op lhs rhs ihl ihr =>
    intro n hn
    obtain ⟨k, rfl⟩ := hsucc _ n hn
    have hl := lhs.length_chars_le
    have hr := rhs.length_chars_le
    simp only [Term.chars_joined, length_append, length_cons] at hn
    exact readsTerm_joined (ihl k (by omega)) (ihr k (by omega))

end Cppward.Source
