import Cppward.Cache.Value
import Cppward.Proofs.Node.Outline

namespace Cppward.Cache

open Text List

/-!
# Reading constructor expressions

A constructor expression is read from its text, whatever stands behind it, as long as that cannot
belong to the expression.

* `Reads`, `ReadsAll` — a text is read as an expression, and as expressions up to a closing bracket;
  one lemma for each way of writing.
* `Outline.term`, `reads_outline` — the text of an outline is read as the expression that it stands
  for.
-/

variable {c : Char} {cs : List Char}
variable {t : Term} {ts us : List Term} {text more rest : List Char} {close : Char} {fuel : Nat}
  {p : Char → Bool}

/-- What may stand behind an expression. -/
def Closes (rest : List Char) : Prop := ∀ c ∈ rest.head?, c ∈ [',', ')', ']']

/-- The text starts with a character of an expression. -/
def Opens (text : List Char) : Prop :=
  ∃ c cs, text = c :: cs ∧ Text.isGap c = false ∧ c ≠ ')' ∧ c ≠ ']'

/-- The text is read as the expression `t`, whatever follows. -/
structure Reads (t : Term) (text : List Char) : Prop where
  opens : Opens text
  read : ∀ fuel rest, text.length ≤ fuel → Closes rest →
    readTerm fuel (text ++ rest) = some (t, rest)

def IsClose (c : Char) : Prop := c ∈ [')', ']']

instance (c : Char) : Decidable (IsClose c) := inferInstanceAs (Decidable (_ ∈ _))

/-- The text is read as the expressions `ts`, up to the bracket that closes them. -/
def ReadsAll (close : Char) (ts : List Term) (text : List Char) : Prop :=
  ∀ fuel rest, text.length < fuel → readTerms close fuel (text ++ close :: rest) = some (ts, rest)

theorem IsClose.closes (h : IsClose close) (rest : List Char) : Closes (close :: rest) := by
  intro c hc
  cases hc
  exact mem_cons_of_mem _ h

/-- Nothing of a class of characters stands in front of what closes an expression. -/
theorem Closes.takeWhile (h : Closes rest) (hp : ∀ c ∈ [',', ')', ']'], p c = false) :
    rest.takeWhile p = [] ∧ rest.dropWhile p = rest := by
  cases rest with
  | nil => exact ⟨rfl, rfl⟩
  | cons c cs =>
    have hc := Bool.eq_false_iff.mp (hp c (h c rfl))
    exact ⟨takeWhile_cons_of_neg hc, dropWhile_cons_of_neg hc⟩

/-! ### Expressions in brackets -/

theorem readsAll_nil (hclose : IsClose close) : ReadsAll close [] [] := by
  intro fuel rest hfuel
  obtain ⟨fuel, rfl⟩ := Nat.exists_eq_add_of_lt hfuel
  obtain ⟨-, hdrop⟩ := (hclose.closes rest).takeWhile (p := Text.isGap) (by decide)
  rw [nil_append, readTerms, hdrop]
  simp

/-- An expression does not start with what closes a list of them, and is read first. -/
theorem Opens.readTerms_eq (h : Opens text) (hclose : IsClose close) :
    readTerms close (fuel + 1) (text ++ rest) = (readTerm fuel (text ++ rest)).bind fun p =>
      match p.2.dropWhile Text.isGap with
      | ',' :: rest => (readTerms close fuel rest).bind fun q => some (p.1 :: q.1, q.2)
      | c :: rest => if c == close then some ([p.1], rest) else none
      | [] => none := by
  obtain ⟨c, cs, rfl, hgap, hparen, hsquare⟩ := h
  have hne : (c == close) = false := by
    rw [beq_eq_false_iff_ne]
    rintro rfl
    simp [IsClose, hparen, hsquare] at hclose
  rw [readTerms, cons_append, dropWhile_cons_of_neg (by simp [hgap])]
  simp only [hne, Bool.false_eq_true, if_false]
  rfl

theorem Reads.readTerms_comma (h : Reads t text) (hclose : IsClose close)
    (hfuel : (text ++ (", ".toList ++ more)).length < fuel) : ∃ k, more.length < k ∧
      ∀ rest, readTerms close fuel (text ++ (", ".toList ++ more) ++ rest) =
        (readTerms close k (more ++ rest)).bind fun q => some (t :: q.1, q.2) := by
  simp only [length_append, show ", ".toList = [',', ' '] by decide, length_cons, length_nil] at hfuel
  obtain ⟨fuel, rfl⟩ : ∃ k, fuel = k + 1 := ⟨fuel - 1, by omega⟩
  refine ⟨fuel, by omega, fun rest => ?_⟩
  have hcomma : Closes (", ".toList ++ (more ++ rest)) := by
    intro c hc
    cases hc
    exact mem_cons_self
  rw [append_assoc, append_assoc, h.opens.readTerms_eq hclose, h.read fuel _ (by omega) hcomma]
  -- the blank behind the comma does not matter
  cases fuel <;> rfl

theorem readsAll_cons (hclose : IsClose close) (h : Reads t text) (hmore : ReadsAll close ts more) :
    ReadsAll close (t :: ts) (text ++ (", ".toList ++ more)) := by
  intro fuel rest hfuel
  obtain ⟨k, hk, hread⟩ := h.readTerms_comma hclose hfuel
  rw [hread, hmore k rest hk]
  rfl

theorem readsAll_last (hclose : IsClose close) (h : Reads t text) : ReadsAll close [t] text := by
  intro fuel rest hfuel
  obtain ⟨fuel, rfl⟩ : ∃ k, fuel = k + 1 := ⟨fuel - 1, by omega⟩
  rw [h.opens.readTerms_eq hclose, h.read fuel _ (by omega) (hclose.closes rest)]
  rcases mem_pair.mp hclose with rfl | rfl <;> rfl

/-! ### Single expressions -/

theorem reads_list (h : ReadsAll ']' ts text) : Reads (.list ts) ('[' :: (text ++ [']'])) := by
  refine ⟨⟨_, _, rfl, by decide, by decide, by decide⟩, fun fuel rest hfuel _ => ?_⟩
  simp only [length_append, length_cons, length_nil] at hfuel
  obtain ⟨fuel, rfl⟩ : ∃ k, fuel = k + 1 := ⟨fuel - 1, by omega⟩
  have hread := h fuel rest (by omega)
  rw [readTerm, cons_append, append_assoc, dropWhile_cons_of_neg (by decide)]
  simp [hread]

/-- A word is read as a name, or as a constructor if a parenthesis follows. -/
theorem readTerm_of_isAlpha (hc : c.isAlpha = true)
    (hcs : ∀ d ∈ cs, isNameChar d = true) (hrest : ∀ d ∈ rest.head?, isNameChar d = false)
    (hgap : rest.dropWhile Text.isGap = rest) : readTerm (fuel + 1) (c :: cs ++ rest) =
      if rest.head? = some '(' then
        (readTerms ')' fuel rest.tail).map fun p => (.apply (String.ofList (c :: cs)) p.1, p.2)
      else some (.name (String.ofList (c :: cs)), rest) := by
  have hstart := of_isAlpha (fun c => !(c == '"' || c == '\'') && c != '[' && !c.isDigit &&
    isNameChar c && !Text.isGap c) (by decide) (by decide) hc
  simp only [Bool.and_eq_true, Bool.not_eq_true', bne_iff_ne, ne_eq] at hstart
  obtain ⟨⟨⟨⟨hquote, hsquare⟩, hdigit⟩, hchar⟩, hspace⟩ := hstart
  have htake : rest.takeWhile isNameChar = [] ∧ rest.dropWhile isNameChar = rest := by
    cases rest with
    | nil => exact ⟨rfl, rfl⟩
    | cons d ds => simp [hrest d rfl]
  rw [readTerm, cons_append, dropWhile_cons_of_neg (by simp [hspace])]
  simp only [hquote, beq_iff_eq, hsquare, hdigit, hchar, Bool.false_eq_true, if_false, if_true,
    takeWhile_append_of_pos hcs, dropWhile_append_of_pos hcs, htake, hgap,
    append_nil]
  split
  · rfl
  · next hnot =>
    rw [if_neg]
    intro hhead
    obtain ⟨ds, rfl⟩ := head?_eq_some_iff.mp hhead
    exact hnot ds rfl

theorem opens_of_isAlpha (hc : c.isAlpha = true) (cs : List Char) : Opens (c :: cs) := by
  have hstart := of_isAlpha (fun c => !Text.isGap c && c != ')' && c != ']') (by decide) (by decide) hc
  simp only [Bool.and_eq_true, Bool.not_eq_true', bne_iff_ne, ne_eq] at hstart
  exact ⟨c, cs, rfl, hstart.1.1, hstart.1.2, hstart.2⟩

theorem opens_apply (name : ClassName) (rest : List Char) : Opens (name.val.toList ++ rest) := by
  obtain ⟨c, cs, hname, hc, -⟩ := name.exists_cons
  rw [hname]
  exact opens_of_isAlpha (Bool.or_eq_true_iff.mpr (.inl hc)) _

theorem readTerm_apply (name : ClassName) : readTerm (fuel + 1) (name.val.toList ++ '(' :: rest) =
    (readTerms ')' fuel rest).map fun p => (.apply name.val p.1, p.2) := by
  obtain ⟨c, cs, hname, hc, hcs⟩ := name.exists_cons
  have hparen : ∀ d ∈ ('(' :: rest).head?, isNameChar d = false := by
    intro d hd
    cases hd
    decide
  rw [hname, readTerm_of_isAlpha (Bool.or_eq_true_iff.mpr (.inl hc)) hcs hparen rfl, head?_cons,
    if_pos rfl, tail_cons, ← hname, String.ofList_toList]

theorem reads_apply (name : ClassName) (h : ReadsAll ')' ts text) :
    Reads (.apply name.val ts) (name.val.toList ++ '(' :: (text ++ [')'])) := by
  refine ⟨opens_apply name _, fun fuel rest hfuel _ => ?_⟩
  simp only [length_append, length_cons, length_nil] at hfuel
  obtain ⟨fuel, rfl⟩ : ∃ k, fuel = k + 1 := ⟨fuel - 1, by omega⟩
  rw [append_assoc, cons_append, append_assoc, singleton_append, readTerm_apply, h fuel rest (by omega)]
  rfl

theorem reads_name (hc : c.isAlpha = true) (hcs : ∀ d ∈ cs, isNameChar d = true) :
    Reads (.name (String.ofList (c :: cs))) (c :: cs) := by
  refine ⟨opens_of_isAlpha hc cs, fun fuel rest hfuel hrest => ?_⟩
  obtain ⟨fuel, rfl⟩ : ∃ k, fuel = k + 1 := ⟨fuel - 1, by simp at hfuel; omega⟩
  obtain ⟨-, hgap⟩ := hrest.takeWhile (p := Text.isGap) (by decide)
  refine (readTerm_of_isAlpha hc hcs ?_ hgap).trans ?_
  · intro d hd
    exact (by decide : ∀ d ∈ [',', ')', ']'], isNameChar d = false) d (hrest d hd)
  · refine if_neg fun hhead => ?_
    exact absurd (hrest '(' hhead) (by decide)

theorem reads_none : Reads (.name "None") "None".toList :=
  reads_name (c := 'N') (by decide) (by decide)

theorem digitsValue_toDigits (n : Nat) : digitsValue (Nat.toDigits 10 n) = n := by
  rw [digitsValue, ← Nat.ofDigitChars_eq_foldl]
  exact Nat.ofDigitChars_ten_toDigits

/-- A number is read back from its digits. -/
theorem reads_number (n : Nat) : Reads (.number n) (toString n).toList := by
  rw [Nat.toString_eq_repr, Nat.toList_repr]
  have hdigits : ∀ c ∈ Nat.toDigits 10 n, c.isDigit = true := fun c hc =>
    Nat.isDigit_of_mem_toDigits (by decide) (by decide) hc
  have hvalue := digitsValue_toDigits n
  obtain ⟨c, cs, hcons⟩ := exists_cons_of_ne_nil (Nat.toDigits_ne_nil (n := n) (b := 10))
  rw [hcons] at hdigits hvalue ⊢
  obtain ⟨hc, hcs⟩ := forall_mem_cons.mp hdigits
  -- a digit starts none of the other expressions
  have hne : ∀ d, d.isDigit = false → (c == d) = false := by
    intro d hd
    rw [beq_eq_false_iff_ne]
    rintro rfl
    rw [hc] at hd
    cases hd
  have hgap : Text.isGap c = false := by
    rw [Text.isGap, hne ' ' (by decide), hne '\n' (by decide), hne '\t' (by decide),
      hne '\r' (by decide)]
    rfl
  refine ⟨⟨c, cs, rfl, hgap, beq_eq_false_iff_ne.mp (hne ')' (by decide)),
    beq_eq_false_iff_ne.mp (hne ']' (by decide))⟩, fun fuel rest hfuel hrest => ?_⟩
  obtain ⟨fuel, rfl⟩ : ∃ k, fuel = k + 1 := ⟨fuel - 1, by simp at hfuel; omega⟩
  obtain ⟨htake, hdrop⟩ := hrest.takeWhile (p := Char.isDigit) (by decide)
  rw [readTerm, cons_append, dropWhile_cons_of_neg (by simp [hgap])]
  simp only [hne '"' (by decide), hne '\'' (by decide), hne '[' (by decide), hc, Bool.or_self,
    Bool.false_eq_true, if_false, if_true, takeWhile_append_of_pos hcs,
    dropWhile_append_of_pos hcs, htake, hdrop, append_nil, hvalue]

theorem readText_escapeChar (s rest : List Char) :
    readText '"' (s.flatMap escapeChar ++ '"' :: rest) = some (s, rest) := by
  induction s with
  | nil => rfl
  | cons c s ih =>
    rw [flatMap_cons, append_assoc]
    induction c using literal_cases with
    | backslash | newline | quote => simp [escapeChar, readText, ih, unescape]
    | other c h₁ h₂ h₃ => simp [escapeChar_of_ne h₁ h₂ h₃, readText, ih, h₁, h₂, h₃]

theorem reads_text (s : String) : Reads (.text s) (quote s) := by
  rw [quote_eq, quoteWith]
  refine ⟨⟨_, _, rfl, by decide, by decide, by decide⟩, fun fuel rest hfuel _ => ?_⟩
  simp only [length_append, length_cons, length_nil] at hfuel
  obtain ⟨fuel, rfl⟩ : ∃ k, fuel = k + 1 := ⟨fuel - 1, by omega⟩
  rw [readTerm, cons_append, append_assoc, dropWhile_cons_of_neg (by decide)]
  simp [readText_escapeChar]

/-! ### Outlines -/

def offsetTerm (loc : Nat) : Term := .apply "SourceLoc" [.name "None", .number loc]

theorem reads_offset (loc : Nat) : Reads (offsetTerm loc) (Style.cache.offset loc).toList := by
  have hargs := readsAll_cons (by decide : IsClose ')') reads_none
    (readsAll_last (by decide) (reads_number loc))
  have hoffset : (Style.cache.offset loc).toList = "SourceLoc".toList ++
      '(' :: ("None".toList ++ (", ".toList ++ (toString loc).toList) ++ [')']) := by
    simp [Style.offset, Style.cache]
  rw [hoffset]
  exact reads_apply ⟨"SourceLoc", by decide⟩ hargs

end Cppward.Cache

namespace Cppward

open Cache List

mutual
/-- The expression that an outline stands for. -/
def Outline.term : Outline → Term
  | .nothing => .name "None"
  | .free number => .name (freshName number)
  | .text s => .text s
  | .list items _ => .list (termList items)
  | .apply name args loc => .apply name.val (termList args ++ [offsetTerm loc])

def Outline.termList : List Outline → List Term
  | [] => []
  | f :: fs => f.term :: termList fs
end

theorem Outline.termList_eq (fs : List Outline) : Outline.termList fs = fs.map Outline.term :=
  eq_map rfl (fun _ _ => rfl) fs

namespace Cache

section Items

variable {fs : List Outline} (hfs : ∀ f ∈ fs, Reads f.term (f.print Style.cache quote))
  {close : Char} (hclose : IsClose close)

include hfs hclose

/-- Items that are each followed by a comma, and more expressions behind them. -/
theorem readsAll_printItems_true {ts : List Term} {more : List Char}
    (hmore : ReadsAll close ts more) :
    ReadsAll close (fs.map Outline.term ++ ts)
      (Outline.printItems Style.cache quote true fs ++ more) := by
  induction fs with
  | nil => exact hmore
  | cons f fs ih =>
    obtain ⟨hf, hrest⟩ := forall_mem_cons.mp hfs
    have hcons := readsAll_cons hclose hf (ih hrest)
    rw [Outline.printItems, Bool.true_or, if_pos rfl, append_assoc, append_assoc]
    exact hcons

theorem readsAll_printItems (comma : Bool) :
    ReadsAll close (fs.map Outline.term) (Outline.printItems Style.cache quote comma fs) := by
  induction fs with
  | nil => exact readsAll_nil hclose
  | cons f fs ih =>
    obtain ⟨hf, hrest⟩ := forall_mem_cons.mp hfs
    rw [Outline.printItems]
    split
    · exact readsAll_cons hclose hf (ih hrest)
    · next hlast =>
      rw [Bool.not_eq_true, Bool.or_eq_false_iff, Bool.not_eq_false', List.isEmpty_iff] at hlast
      rw [hlast.2]
      simpa [Outline.printItems] using readsAll_last hclose hf

end Items

/-- **The text of an outline is read as its expression.** -/
theorem reads_outline (f : Outline) : Reads f.term (f.print Style.cache quote) := by
  induction f using Outline.induction with
  | nothing => exact reads_none
  | free number =>
    obtain ⟨cs, hname, hcs⟩ := exists_freshName_eq_cons number
    rw [Outline.term, Outline.print, ← String.ofList_toList (s := freshName number), hname,
      String.toList_ofList]
    exact reads_name (by decide) hcs
  | text s => exact reads_text s
  | list items comma ih =>
    rw [Outline.term, Outline.termList_eq]
    exact reads_list (readsAll_printItems ih (by decide) comma)
  | apply name args loc ih =>
    rw [Outline.term, Outline.termList_eq, Outline.print,
      ← append_assoc (Outline.printItems ..)]
    exact reads_apply name
      (readsAll_printItems_true ih (by decide) (readsAll_last (by decide) (reads_offset loc)))

end Cache

end Cppward
