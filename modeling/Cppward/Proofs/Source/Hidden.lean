import Cppward.Proofs.Layout.Orderly
import Cppward.Proofs.Node.Outline
import Cppward.Source.Read

namespace Cppward.Source

open Grammar Layout Text List

/-!
# Constructor expressions with hidden escapes

Before a text is laid out, words are put in place of escaped backslashes.  In a constructor
expression only quoted texts change by this, and what comes out is orderly.

* `hiddenQuote` — a quoted text whose backslashes are hidden.
* `hideEscapes_print` — hiding the escapes of an expression hides them in its texts.
* `orderly_print` — the result is orderly.
* `restored` — the value that a hidden text has for the grammar; the word for a backslash is gone
  from it, so that it is the text itself exactly if that word was not in it (`restored_eq_iff`).
-/

/-! ### Hiding -/

/-- A character of a literal, as the layout sees it. -/
def hideChar (c : Char) : List Char :=
  if c = '\\' then backslashWord.toList
  else if c = '\n' then ['\\', 'n']
  else if c = '"' then ['\\', '"']
  else [c]

/-- A quoted text, as the layout sees it. -/
def hiddenQuote : String → List Char := quoteWith hideChar

variable {old new u u' v v' : List Char} {s : Style} {w w' : Char → List Char} {x : Char}

/-- In front of any text, `u` is replaced by `v`. -/
def Replaces (old new u v : List Char) : Prop :=
  ∀ rest, replaceAll old new (u ++ rest) = v ++ replaceAll old new rest

theorem Replaces.append (h : Replaces old new u v) (h' : Replaces old new u' v') :
    Replaces old new (u ++ u') (v ++ v') := by
  intro rest
  rw [append_assoc, h, h', append_assoc]

theorem Replaces.eq (h : Replaces old new u v) : replaceAll old new u = v := by
  have := h []
  rwa [append_nil, show replaceAll old new [] = [] from rfl, append_nil] at this

/-- An escape sequence is not met where no backslash is. -/
theorem Replaces.plain (h : '\\' ∉ u) : Replaces ['\\', x] new u u := by
  induction u with
  | nil => exact fun _ => rfl
  | cons c u ih =>
    rw [mem_cons, not_or] at h
    intro rest
    rw [cons_append, replaceAll_cons, ih h.2 rest, cons_append]
    exact fun hprefix => h.1 (cons_prefix_cons.mp hprefix).1

theorem Replaces.escape {y : Char} (hx : y ≠ x) (hback : y ≠ '\\') :
    Replaces ['\\', x] new ['\\', y] ['\\', y] := by
  intro rest
  rw [cons_append, singleton_append, replaceAll_cons, replaceAll_cons]
  · rfl
  · exact fun hprefix => hback (cons_prefix_cons.mp hprefix).1.symm
  · intro hprefix
    exact hx (cons_prefix_cons.mp (cons_prefix_cons.mp hprefix).2).1.symm

theorem Replaces.flatMap (h : ∀ c, Replaces old new (w c) (w' c)) (cs : List Char) :
    Replaces old new (cs.flatMap w) (cs.flatMap w') := by
  induction cs with
  | nil => exact fun _ => rfl
  | cons c cs ih => exact (h c).append ih

theorem not_mem_className (name : ClassName) : '\\' ∉ name.val.toList := by
  obtain ⟨c, cs, hname, hc, hcs⟩ := name.exists_cons
  rw [hname, mem_cons, not_or]
  refine ⟨?_, fun hmem => absurd (hcs _ hmem) (by decide)⟩
  rintro rfl
  exact absurd hc (by decide)

/-- Escape sequences are met only in the texts of an expression. -/
theorem Replaces.print (hs : s.offsets = false)
    (h : ∀ c, Replaces ['\\', x] new (w c) (w' c)) (f : Outline) :
    Replaces ['\\', x] new (f.print s (quoteWith w)) (f.print s (quoteWith w')) := by
  have hitems : ∀ comma fs,
      (∀ f ∈ fs, Replaces ['\\', x] new (f.print s (quoteWith w)) (f.print s (quoteWith w'))) →
      Replaces ['\\', x] new (Outline.printItems s (quoteWith w) comma fs)
        (Outline.printItems s (quoteWith w') comma fs) := by
    intro comma fs ih
    induction fs with
    | nil => exact fun _ => rfl
    | cons f fs ihfs =>
      obtain ⟨hf, hfs⟩ := forall_mem_cons.mp ih
      refine hf.append (.append (.plain ?_) (ihfs hfs))
      split <;> decide
  induction f using Outline.induction with
  | nothing => exact .plain (u := "None".toList) (by decide)
  | free number => exact .plain fun h => absurd (isNameChar_of_mem_freshName h) (by decide)
  | text t =>
    have hquote : Replaces ['\\', x] new ['"'] ['"'] := .plain (by decide)
    exact hquote.append ((Replaces.flatMap h t.toList).append hquote)
  | list items comma ih =>
    have hopen : Replaces ['\\', x] new ['['] ['['] := .plain (by decide)
    refine hopen.append ((hitems comma items ih).append (.plain ?_))
    rw [Style.listType]
    split <;> decide
  | apply name args loc ih =>
    have hopen : Replaces ['\\', x] new ['('] ['('] := .plain (by decide)
    refine (Replaces.plain (not_mem_className name)).append
      (hopen.append ((hitems true args ih).append (.plain ?_)))
    simp [Style.offset, hs]

theorem hideChar_of_ne {c : Char} (h₁ : c ≠ '\\') (h₂ : c ≠ '\n') (h₃ : c ≠ '"') :
    hideChar c = [c] := by
  rw [hideChar, if_neg h₁, if_neg h₂, if_neg h₃]

/-- **Escapes are hidden in the texts of an expression.** -/
theorem hideEscapes_print (hs : s.offsets = false) (f : Outline) :
    hideEscapes (f.print s quote) = f.print s hiddenQuote := by
  have hback : ∀ c, Replaces ['\\', '\\'] backslashWord.toList (escapeChar c) (hideChar c) := by
    intro c
    induction c using literal_cases with
    | backslash => exact replaceAll_append (by decide)
    | newline | quote => exact .escape (by decide) (by decide)
    | other c h₁ h₂ h₃ =>
      rw [hideChar_of_ne h₁ h₂ h₃, escapeChar_of_ne h₁ h₂ h₃]
      exact .plain (by simpa using Ne.symm h₁)
  -- no backslash is left but those before a newline or a quote, hence no unicode escape
  have hunicode : ∀ x ∈ ['U', 'u'], ∀ c,
      Replaces ['\\', x] unicodeWord.toList (hideChar c) (hideChar c) := by
    intro x hx c
    have hne : 'n' ≠ x ∧ '"' ≠ x :=
      (by decide : ∀ x ∈ ['U', 'u'], 'n' ≠ x ∧ '"' ≠ x) x hx
    induction c using literal_cases with
    | backslash => exact .plain (u := backslashWord.toList) (by decide)
    | newline => exact .escape hne.1 (by decide)
    | quote => exact .escape hne.2 (by decide)
    | other c h₁ h₂ h₃ =>
      rw [hideChar_of_ne h₁ h₂ h₃]
      exact .plain (by simpa using Ne.symm h₁)
  rw [hideEscapes, quote_eq, (Replaces.print hs hback f).eq,
    (Replaces.print hs (hunicode 'U' (by decide)) f).eq]
  exact (Replaces.print hs (hunicode 'u' (by decide)) f).eq

/-! ### Order -/

theorem sealed_append (hu : Sealed u) (hv : Sealed v) : Sealed (u ++ v) := by
  induction hu with
  | nil => exact hv
  | char hquote hback _ ih => exact .char hquote hback ih
  | escaped hback _ ih => exact .escaped hback ih

theorem sealed_of_forall (h : ∀ c ∈ u, c ≠ '"' ∧ c ≠ '\\') : Sealed u := by
  induction u with
  | nil => exact .nil
  | cons c u ih =>
    obtain ⟨hc, hu⟩ := forall_mem_cons.mp h
    exact .char hc.1 hc.2 (ih hu)

theorem sealed_hideChar (cs : List Char) : Sealed (cs.flatMap hideChar) := by
  induction cs with
  | nil => exact .nil
  | cons c cs ih =>
    refine sealed_append ?_ ih
    induction c using literal_cases with
    | backslash => exact sealed_of_forall (u := backslashWord.toList) (by decide)
    | newline | quote => exact .escaped (by decide) .nil
    | other c h₁ h₂ h₃ =>
      rw [hideChar_of_ne h₁ h₂ h₃]
      exact .char h₃ h₁ .nil

theorem orderly_className (name : ClassName) : Orderly name.val.toList := by
  obtain ⟨c, cs, hname, hc, hcs⟩ := name.exists_cons
  rw [hname]
  refine .word ?_ (forall_mem_cons.mpr ⟨of_isUpper isWordChar (by decide) hc, fun d hd => ?_⟩)
  · rintro rfl
    exact absurd hc (by decide)
  · rw [isWordChar, Bool.or_eq_true]
    exact .inl (hcs d hd)

/-- **Expressions with hidden escapes are orderly.** -/
theorem orderly_print (hs : s.offsets = false) (f : Outline) : Orderly (f.print s hiddenQuote) := by
  have hnone : Orderly ['N', 'o', 'n', 'e'] := .word (by decide) (by decide)
  have hnode : Orderly ['N', 'o', 'd', 'e'] := .word (by decide) (by decide)
  have hcomma : Orderly ", ".toList :=
    .append (.mark (c := ',') (by decide)) (.mark (c := ' ') (by decide))
  have hitems : ∀ comma fs, (∀ f ∈ fs, Orderly (f.print s hiddenQuote)) →
      Orderly (Outline.printItems s hiddenQuote comma fs) := by
    intro comma fs ih
    induction fs with
    | nil => exact .nil
    | cons f fs ihfs =>
      obtain ⟨hf, hfs⟩ := forall_mem_cons.mp ih
      refine hf.append (.append ?_ (ihfs hfs))
      split
      · exact hcomma
      · exact .nil
  induction f using Outline.induction with
  | nothing => exact hnone
  | free number =>
    obtain ⟨cs, hname, hcs⟩ := exists_freshName_eq_cons number
    rw [Outline.print, hname]
    refine .word (by decide) (forall_mem_cons.mpr ⟨by decide, fun d hd => ?_⟩)
    rw [isWordChar, Bool.or_eq_true]
    exact .inl (hcs d hd)
  | text t => exact .literal (sealed_hideChar t.toList)
  | list items comma ih =>
    have htype : Orderly s.listType := by
      rw [Style.listType]
      split
      · exact .append (.mark (c := ':') (by decide)) (.append (.mark (c := ' ') (by decide)) hnode)
      · exact .nil
    have := (Orderly.square (hitems comma items ih)).append htype
    rwa [cons_append, append_assoc] at this
  | apply name args loc ih =>
    have hoffset : (s.offset loc).toList = [] := by simp [Style.offset, hs]
    rw [Outline.print, hoffset, nil_append]
    exact (orderly_className name).append (.paren (hitems true args ih))

/-! ### Values -/

theorem unescape_cons {c : Char} (h : c ≠ '\\') (cs : List Char) :
    unescape (c :: cs) = c :: unescape cs := by
  rw [unescape]
  rintro d ds rfl
  exact absurd rfl h

theorem unescape_append (h : '\\' ∉ u) (rest : List Char) :
    unescape (u ++ rest) = u ++ unescape rest := by
  induction u with
  | nil => rfl
  | cons c u ih =>
    rw [mem_cons, not_or] at h
    rw [cons_append, unescape_cons (Ne.symm h.1), ih h.2, cons_append]

/-- Reading the escape sequences of a hidden text leaves the words for its backslashes. -/
theorem unescape_hideChar (cs : List Char) :
    unescape (cs.flatMap hideChar) = spell backslashWord.toList '\\' cs := by
  induction cs with
  | nil => rfl
  | cons c cs ih =>
    rw [flatMap_cons, spell_cons, ← ih]
    induction c using literal_cases with
    | backslash => exact unescape_append (u := backslashWord.toList) (by decide) _
    | newline | quote => rfl
    | other c h₁ h₂ h₃ =>
      rw [if_neg h₁, hideChar_of_ne h₁ h₂ h₃]
      exact unescape_cons h₁ _

/-- The value that a quoted text has for the grammar. -/
def restored (t : String) : String :=
  String.ofList (replaceAll backslashWord.toList ['\\'] (spell backslashWord.toList '\\' t.toList))

theorem literalValue_hideChar (t : String) :
    literalValue (t.toList.flatMap hideChar) = restored t := by
  rw [literalValue, unescape_hideChar, restored]

theorem restored_eq_iff (t : String) : restored t = t ↔ IsLiteral t := by
  constructor
  · intro h
    rw [← h, IsLiteral, restored, String.toList_ofList]
    exact not_infix_replaceAll (by decide) (by decide) _
  · intro h
    rw [restored, replaceAll_spell (by decide) (by decide) h, String.ofList_toList]

end Cppward.Source
