import Cppward.Proofs.Cache.RoundTrip

namespace Cppward

open Text List
open Style (cache)

/-!
# Caches that cannot be read

A carriage return in a literal is written into a cache as it is, and comes back from the file as a
newline.  A text that is closed on another line is no expression, so that the cache is not used.

* `Refuses`, `RefusesAll` — a text is not read as an expression, or as a list of them.
* `refuses_outline` — neither is the text of an outline in which a quoted text goes over a line.
* `read_of_carriageReturn` — the cache of a tree with a carriage return in a literal is not used.
-/

variable {cs : List Char} {n : Node}

namespace Cache

variable {t : Term} {text more : List Char}

/-- The text is not read as an expression, whatever follows. -/
structure Refuses (text : List Char) : Prop where
  opens : Opens text
  read : ∀ fuel rest, text.length ≤ fuel → readTerm fuel (text ++ rest) = none

/-- The text is not read as a list of expressions, whatever follows. -/
def RefusesAll (text : List Char) : Prop := ∀ close fuel rest, IsClose close →
  text.length < fuel → readTerms close fuel (text ++ rest) = none

theorem Refuses.append (h : Refuses text) (more : List Char) : RefusesAll (text ++ more) := by
  intro close fuel rest hclose hfuel
  rw [length_append] at hfuel
  obtain ⟨fuel, rfl⟩ : ∃ k, fuel = k + 1 := ⟨fuel - 1, by omega⟩
  rw [append_assoc, h.opens.readTerms_eq hclose, h.read fuel _ (by omega)]
  rfl

theorem RefusesAll.cons (h : Reads t text) (hmore : RefusesAll more) :
    RefusesAll (text ++ (", ".toList ++ more)) := by
  intro close fuel rest hclose hfuel
  obtain ⟨k, hk, hread⟩ := h.readTerms_comma hclose hfuel
  rw [hread, hmore close k rest hclose hk]
  rfl

theorem refuses_list (h : RefusesAll text) (more : List Char) :
    Refuses ('[' :: (text ++ ']' :: more)) := by
  refine ⟨⟨_, _, rfl, by decide, by decide, by decide⟩, fun fuel rest hfuel => ?_⟩
  simp only [length_append, length_cons] at hfuel
  obtain ⟨fuel, rfl⟩ : ∃ k, fuel = k + 1 := ⟨fuel - 1, by omega⟩
  have hread := h ']' fuel (']' :: (more ++ rest)) (by decide) (by omega)
  rw [readTerm, cons_append, append_assoc, dropWhile_cons_of_neg (by decide)]
  simp [hread]

theorem refuses_apply (name : ClassName) (h : RefusesAll text) (more : List Char) :
    Refuses (name.val.toList ++ '(' :: (text ++ more)) := by
  refine ⟨opens_apply name _, fun fuel rest hfuel => ?_⟩
  obtain ⟨c, cs, hname, -⟩ := name.exists_cons
  simp only [length_append, hname, length_cons] at hfuel
  obtain ⟨fuel, rfl⟩ : ∃ k, fuel = k + 1 := ⟨fuel - 1, by omega⟩
  rw [append_assoc, cons_append, append_assoc, readTerm_apply,
    h ')' fuel (more ++ rest) (by decide) (by omega)]
  rfl

/-! ### Texts that go over a line -/

/-- What a file makes of a carriage return. -/
def newlineFor (c : Char) : Char := if c = '\r' then '\n' else c

/-- A text in quotes as it comes back from a file. -/
def brokenQuote (t : String) : List Char := (quote t).map newlineFor

theorem readText_broken {s : List Char} (h : '\r' ∈ s) (rest : List Char) :
    readText '"' ((s.flatMap escapeChar).map newlineFor ++ rest) = none := by
  induction s with
  | nil => cases h
  | cons c s ih =>
    rw [flatMap_cons, map_append, append_assoc]
    by_cases hc : c = '\r'
    · subst hc
      rfl
    · have hs : '\r' ∈ s := by simpa [Ne.symm hc] using h
      induction c using literal_cases with
      | backslash | newline | quote => simp [escapeChar, newlineFor, readText, ih hs]
      | other c h₁ h₂ h₃ =>
        simp [escapeChar_of_ne h₁ h₂ h₃, newlineFor, readText, ih hs, h₁, h₂, h₃, hc]

theorem refuses_brokenQuote {t : String} (h : '\r' ∈ t.toList) : Refuses (brokenQuote t) := by
  rw [brokenQuote, quote_eq, quoteWith]
  refine ⟨⟨_, _, rfl, by decide, by decide, by decide⟩, fun fuel rest hfuel => ?_⟩
  obtain ⟨fuel, rfl⟩ : ∃ k, fuel = k + 1 := ⟨fuel - 1, by simp at hfuel; omega⟩
  rw [map_cons, map_append, readTerm, cons_append, append_assoc,
    dropWhile_cons_of_neg (by decide)]
  simp [newlineFor, readText_broken h]

theorem map_newlineFor (h : '\r' ∉ cs) : cs.map newlineFor = cs := by
  have hkeep : ∀ c ∈ cs, newlineFor c = id c := by
    intro c hc
    refine if_neg fun heq => ?_
    exact h (heq ▸ hc)
  rw [map_congr_left hkeep, map_id]

/-- Other texts in quotes come back as they were. -/
theorem brokenQuote_eq {t : String} (h : '\r' ∉ t.toList) : brokenQuote t = quote t :=
  map_newlineFor fun hmem => h (mem_toList_of_mem_quote t _ hmem (by decide))

theorem readNewlines_eq_map (h : '\n' ∉ cs) : Text.readNewlines cs = cs.map newlineFor := by
  induction cs with
  | nil => rfl
  | cons c cs ih =>
    rw [mem_cons, not_or] at h
    rw [readNewlines_cons (.inr h.2), ih h.2, map_cons, newlineFor]
    simp

end Cache

namespace Outline

variable {s : Style} {quoted quoted' : String → List Char} {f : Outline} {fs : List Outline}
  {comma : Bool}

/-- The text of an outline depends on how the texts in it are quoted. -/
theorem print_congr (h : ∀ t ∈ f.texts, quoted t = quoted' t) :
    f.print s quoted = f.print s quoted' := by
  have hitems : ∀ {comma : Bool} {fs : List Outline},
      (∀ f ∈ fs, (∀ t ∈ f.texts, quoted t = quoted' t) → f.print s quoted = f.print s quoted') →
      (∀ t ∈ textsList fs, quoted t = quoted' t) →
        printItems s quoted comma fs = printItems s quoted' comma fs := by
    intro comma fs ih h
    induction fs with
    | nil => rfl
    | cons f fs ihfs =>
      rw [textsList, forall_mem_append] at h
      rw [forall_mem_cons] at ih
      rw [printItems, printItems, ih.1 h.1, ihfs ih.2 h.2]
  induction f using Outline.induction with
  | nothing | free number => rfl
  | text t => exact h t (mem_singleton_self t)
  | list items comma ih => rw [print, print, hitems ih h]
  | apply name args loc ih => rw [print, print, hitems ih h]

/-- Every character of a quoted text is printed. -/
theorem mem_print {t : String} {c : Char} (ht : t ∈ f.texts) (hc : c ∈ quoted t) :
    c ∈ f.print s quoted := by
  have hitems : ∀ {comma : Bool} {fs : List Outline},
      (∀ f ∈ fs, t ∈ f.texts → c ∈ f.print s quoted) → t ∈ textsList fs →
        c ∈ printItems s quoted comma fs := by
    intro comma fs ih ht
    induction fs with
    | nil => cases ht
    | cons f fs ihfs =>
      rw [forall_mem_cons] at ih
      rw [textsList, mem_append] at ht
      rw [printItems, mem_append, mem_append]
      exact ht.imp ih.1 fun ht => .inr (ihfs ih.2 ht)
  induction f using Outline.induction with
  | nothing | free number => cases ht
  | text t' =>
    cases mem_singleton.mp ht
    exact hc
  | list items comma ih =>
    exact mem_cons_of_mem _ (mem_append_left _ (hitems ih ht))
  | apply name args loc ih =>
    exact mem_append_right _ (mem_cons_of_mem _ (mem_append_left _ (hitems ih ht)))

/-- Outside of quotes there are no carriage returns. -/
theorem map_newlineFor_print (f : Outline) :
    (f.print s quoted).map Cache.newlineFor =
      f.print s fun t => (quoted t).map Cache.newlineFor := by
  have hitems : ∀ {comma : Bool} {fs : List Outline},
      (∀ f ∈ fs, (f.print s quoted).map Cache.newlineFor =
        f.print s fun t => (quoted t).map Cache.newlineFor) →
      (printItems s quoted comma fs).map Cache.newlineFor =
        printItems s (fun t => (quoted t).map Cache.newlineFor) comma fs := by
    intro comma fs ih
    induction fs with
    | nil => rfl
    | cons f fs ihfs =>
      rw [forall_mem_cons] at ih
      rw [printItems, printItems, map_append, map_append, ih.1, ihfs ih.2]
      split <;> rfl
  have hplain : ∀ {cs : List Char}, (∀ c ∈ cs, ¬IsControl c) → cs.map Cache.newlineFor = cs :=
    fun h => Cache.map_newlineFor fun hmem => h _ hmem (by decide)
  induction f using Outline.induction with
  | nothing =>
    have hnone : ∀ c ∈ "None".toList, ¬IsControl c := by decide
    exact hplain hnone
  | free number =>
    exact hplain fun c hc => not_isControl_of (by decide) (isNameChar_of_mem_freshName hc)
  | text t => rfl
  | list items comma ih =>
    rw [print, print, map_cons, map_append, map_cons, hitems ih, Style.listType]
    split <;> rfl
  | apply name args loc ih =>
    rw [print, print, map_append, map_cons, map_append, map_append, hitems ih,
      hplain (not_isControl_of_mem_className name), hplain (not_isControl_of_mem_offset s loc)]
    rfl

end Outline

namespace Cache

section Items

variable {fs : List Outline}

/-- One of several items is refused, and those in front of it are read. -/
theorem refusesAll_printItems
    (hfs : ∀ f ∈ fs, (∃ t ∈ f.texts, '\r' ∈ t.toList) →
      Refuses (f.print cache brokenQuote))
    (comma : Bool) (h : ∃ t ∈ Outline.textsList fs, '\r' ∈ t.toList) (more : List Char) :
    RefusesAll (Outline.printItems cache brokenQuote comma fs ++ more) := by
  induction fs with
  | nil => simp [Outline.textsList] at h
  | cons f fs ih =>
    rw [forall_mem_cons] at hfs
    rw [Outline.printItems, append_assoc]
    by_cases hf : ∃ t ∈ f.texts, '\r' ∈ t.toList
    · exact (hfs.1 hf).append _
    · have hrest : ∃ t ∈ Outline.textsList fs, '\r' ∈ t.toList := by
        obtain ⟨t, ht, hmem⟩ := h
        rw [Outline.textsList, mem_append] at ht
        exact ⟨t, ht.resolve_left fun ht => hf ⟨t, ht, hmem⟩, hmem⟩
      have hcomma : (comma || !fs.isEmpty) = true := by
        cases fs with
        | nil => simp [Outline.textsList] at hrest
        | cons _ _ => simp
      have hprint : f.print cache brokenQuote = f.print cache quote :=
        Outline.print_congr fun t ht => brokenQuote_eq fun hmem => hf ⟨t, ht, hmem⟩
      rw [hcomma, if_pos rfl, hprint, append_assoc]
      exact .cons (reads_outline f) (ih hfs.2 hrest)

end Items

/-- **A quoted text that goes over a line is not read.** -/
theorem refuses_outline (f : Outline) (h : ∃ t ∈ f.texts, '\r' ∈ t.toList) :
    Refuses (f.print cache brokenQuote) := by
  induction f using Outline.induction with
  | nothing | free number => simp [Outline.texts] at h
  | text t =>
    refine refuses_brokenQuote ?_
    simpa [Outline.texts] using h
  | list items comma ih =>
    have hitems := refusesAll_printItems ih comma h []
    rw [append_nil] at hitems
    exact refuses_list hitems _
  | apply name args loc ih =>
    have hitems := refusesAll_printItems ih true h []
    rw [append_nil] at hitems
    exact refuses_apply name hitems _

theorem newline_not_mem_print (f : Outline) : '\n' ∉ f.print cache quote := by
  intro hmem
  obtain ⟨t, -, ht⟩ := exists_text_of_mem_print (by decide) hmem
  rw [quote_eq] at ht
  obtain ⟨c, -, hc⟩ := exists_of_mem_quoteWith (by decide) ht
  cases eq_of_mem_escapeChar (by decide) hc
  exact absurd hc (by decide)

theorem mem_texts_of_mem_literals (hn : n.Grammatical) {t : String}
    (ht : t ∈ n.literals) : t ∈ n.outline.texts := by
  rw [texts_outline hn]
  obtain ⟨m, hm, ht⟩ := mem_flatMap.mp ht
  refine mem_flatMap.mpr ⟨m, hm, ?_⟩
  exact mem_append_right _ (mem_append_left _ ht)

theorem readNewlines_constructorText (hn : n.Grammatical) :
    Text.readNewlines (n.constructorText cache).toList =
      n.outline.print cache brokenQuote := by
  rw [toList_constructorText cache hn, readNewlines_eq_map (newline_not_mem_print _),
    Outline.map_newlineFor_print]
  rfl

theorem null_mem_brokenQuote_iff {t : String} : '\x00' ∈ brokenQuote t ↔ '\x00' ∈ t.toList := by
  have hnewline : ∀ c, newlineFor c = '\x00' ↔ c = '\x00' := by
    intro c
    rw [newlineFor]
    split
    · next heq => simp [heq]
    · rfl
  have hescape : '\x00' ∈ t.toList → '\x00' ∈ quote t := by
    intro hmem
    rw [quote_eq, quoteWith]
    exact mem_cons_of_mem _ (mem_append_left _ (mem_flatMap.mpr ⟨_, hmem, by decide⟩))
  rw [brokenQuote, mem_map]
  constructor
  · rintro ⟨c, hc, heq⟩
    cases (hnewline c).mp heq
    exact mem_toList_of_mem_quote t _ hc (by decide)
  · exact fun hmem => ⟨_, hescape hmem, (hnewline _).mpr rfl⟩

/-- **A null character in a literal is an error.** -/
theorem read_of_null (hn : n.Grammatical) (hnull : ∃ t ∈ n.literals, '\x00' ∈ t.toList) :
    Entry.read (Text.readNewlines (n.constructorText cache).toList) = .wrong := by
  obtain ⟨t, ht, hmem⟩ := hnull
  have hprint : '\x00' ∈ n.outline.print cache brokenQuote :=
    Outline.mem_print (mem_texts_of_mem_literals hn ht) (null_mem_brokenQuote_iff.mpr hmem)
  rw [readNewlines_constructorText hn, Entry.read, if_pos (by simpa using hprint)]

/-- **A carriage return in a literal makes a cache unusable.** -/
theorem read_of_carriageReturn (hn : n.Grammatical) (hreturn : ∃ t ∈ n.literals, '\r' ∈ t.toList)
    (hnull : ∀ t ∈ n.literals, '\x00' ∉ t.toList) :
    Entry.read (Text.readNewlines (n.constructorText cache).toList) = .unusable := by
  have hclean : '\x00' ∉ n.outline.print cache brokenQuote := by
    intro hmem
    obtain ⟨t, ht, hct⟩ := exists_text_of_mem_print (by decide) hmem
    rw [null_mem_brokenQuote_iff] at hct
    exact hnull t (mem_literals_of_isControl hn ht (by decide) hct) hct
  have hread : Term.read (n.outline.print cache brokenQuote) = none := by
    obtain ⟨t, ht, hmem⟩ := hreturn
    have hrefuses := (refuses_outline n.outline ⟨t, mem_texts_of_mem_literals hn ht, hmem⟩).read
      (2 * (n.outline.print cache brokenQuote).length + 2) [] (by omega)
    rw [append_nil] at hrefuses
    rw [Term.read, hrefuses]
  rw [readNewlines_constructorText hn, Entry.read, if_neg (by simpa using hclean), hread]

end Cache

end Cppward
