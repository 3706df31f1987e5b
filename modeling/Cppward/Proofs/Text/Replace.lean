import Cppward.Text.Lines
import Mathlib.Data.List.Infix

namespace Cppward.Text

open List

/-!
# Replacement

What leftmost replacement does in the two cases that matter: a single character is replaced, or a
word is replaced by a character that is not in it.

* `replaceAll_singleton` — a replaced character is replaced wherever it stands.
* `not_infix_replaceAll` — a word that is replaced by another character is gone.
* `replaceAll_spell` — a word in place of a character is replaced back, if the word does not overlap
  with itself.
-/

variable {old new word u cs text : List Char} {b c : Char}

theorem replaceFrom_skip (text : List Char) :
    replaceFrom old new u.length (u ++ text) = replaceAll old new text := by
  induction u with
  | nil => rfl
  | cons c u ih => exact ih

theorem replaceAll_cons (c : Char) (cs : List Char) (h : ¬old <+: c :: cs) :
    replaceAll old new (c :: cs) = c :: replaceAll old new cs := by
  rw [← List.isPrefixOf_iff_prefix] at h
  rw [replaceAll, replaceFrom, if_neg h]
  rfl

theorem replaceAll_append (h : old ≠ []) (text : List Char) :
    replaceAll old new (old ++ text) = new ++ replaceAll old new text := by
  obtain ⟨c, rest, rfl⟩ := exists_cons_of_ne_nil h
  have hprefix : (c :: rest).isPrefixOf (c :: (rest ++ text)) = true :=
    List.isPrefixOf_iff_prefix.mpr (prefix_append (c :: rest) text)
  rw [replaceAll, cons_append, replaceFrom, if_pos hprefix]
  exact congrArg (new ++ ·) (replaceFrom_skip (u := rest) text)

theorem replaceAll_singleton (cs : List Char) :
    replaceAll [b] new cs = cs.flatMap fun c => if c = b then new else [c] := by
  induction cs with
  | nil => rfl
  | cons c cs ih =>
    rw [flatMap_cons, ← ih]
    by_cases hc : c = b
    · rw [if_pos hc, hc]
      exact replaceAll_append (cons_ne_nil b []) cs
    · rw [if_neg hc, replaceAll_cons c cs (by simpa using Ne.symm hc)]
      rfl

/-! ### Words in place of a character -/

/-- What the result starts with is not replaced, if it does not hold the new character. -/
theorem prefix_of_prefix_replaceAll (hu : b ∉ u) (h : u <+: replaceAll word [b] cs) : u <+: cs := by
  induction cs generalizing u with
  | nil => exact h
  | cons c cs ih =>
    cases u with
    | nil => exact nil_prefix
    | cons d u =>
      rw [replaceAll, replaceFrom] at h
      split at h
      · obtain ⟨rfl, -⟩ := cons_prefix_cons.mp h
        exact absurd mem_cons_self hu
      · obtain ⟨rfl, hrest⟩ := cons_prefix_cons.mp h
        have hu : b ∉ u := fun hb => hu (mem_cons_of_mem d hb)
        exact cons_prefix_cons.mpr ⟨rfl, ih hu hrest⟩

/-- No occurrence of the word is left. -/
theorem not_infix_replaceFrom (hword : word ≠ []) (hb : b ∉ word) (skip : Nat) (cs : List Char) :
    ¬word <:+: replaceFrom word [b] skip cs := by
  induction cs generalizing skip with
  | nil =>
    intro h
    rw [replaceFrom] at h
    exact hword (infix_nil.mp h)
  | cons c cs ih =>
    cases skip with
    | succ skip => exact ih skip
    | zero =>
      rw [replaceFrom]
      split
      · -- an occurrence that starts here would start with the new character
        rw [singleton_append, infix_cons_iff, not_or]
        refine ⟨fun h => hb ?_, ih _⟩
        obtain ⟨d, rest, rfl⟩ := exists_cons_of_ne_nil hword
        obtain ⟨rfl, -⟩ := cons_prefix_cons.mp h
        exact mem_cons_self
      · next hprefix =>
        -- an occurrence that starts here was in the text, and would have been replaced
        rw [infix_cons_iff, not_or]
        refine ⟨fun h => hprefix ?_, ih 0⟩
        rw [List.isPrefixOf_iff_prefix]
        obtain ⟨d, rest, rfl⟩ := exists_cons_of_ne_nil hword
        obtain ⟨rfl, hrest⟩ := cons_prefix_cons.mp h
        refine cons_prefix_cons.mpr ⟨rfl, ?_⟩
        exact prefix_of_prefix_replaceAll (fun hb' => hb (mem_cons_of_mem d hb')) hrest

theorem not_infix_replaceAll (hword : word ≠ []) (hb : b ∉ word) (cs : List Char) :
    ¬word <:+: replaceAll word [b] cs := not_infix_replaceFrom hword hb 0 cs

/-- A text with a word in place of a character. -/
def spell (word : List Char) (b : Char) (cs : List Char) : List Char :=
  cs.flatMap fun c => if c = b then word else [c]

theorem spell_cons (word : List Char) (b c : Char) (cs : List Char) :
    spell word b (c :: cs) = (if c = b then word else [c]) ++ spell word b cs := flatMap_cons

/-- No proper end of the word is a start of it, so that two occurrences of it cannot overlap. -/
def Unbordered (word : List Char) : Prop := ∀ u ∈ word.tails, u <+: word → u = [] ∨ u = word

instance : Decidable (Unbordered word) := inferInstanceAs (Decidable (∀ u ∈ _, _))

/-- An end of the word that a spelled text starts with was there before. -/
theorem prefix_of_prefix_spell (hword : Unbordered word) (hu : u <:+ word) (hne : u ≠ word)
    (h : u <+: spell word b cs) : u <+: cs := by
  induction cs generalizing u with
  | nil => exact h
  | cons c cs ih =>
    rw [spell_cons] at h
    by_cases hc : c = b
    · -- the spelled text starts with the word, so that `u` is an end and a start of it
      rw [if_pos hc] at h
      have hstart : u <+: word :=
        prefix_of_prefix_length_le h (prefix_append ..) hu.length_le
      rcases hword u ((mem_tails u word).mpr hu) hstart with rfl | heq
      · exact nil_prefix
      · exact absurd heq hne
    · rw [if_neg hc] at h
      cases u with
      | nil => exact nil_prefix
      | cons d u =>
        obtain ⟨rfl, hrest⟩ := cons_prefix_cons.mp h
        refine cons_prefix_cons.mpr ⟨rfl, ih ((suffix_cons d u).trans hu) ?_ hrest⟩
        rintro rfl
        exact absurd hu.length_le (by simp)

/-- **Spelling is undone by replacement**, in a text that does not hold the word. -/
theorem replaceAll_spell (hword : Unbordered word) (hne : word ≠ []) (hcs : ¬word <:+: cs) :
    replaceAll word [b] (spell word b cs) = cs := by
  induction cs with
  | nil => rfl
  | cons c cs ih =>
    rw [infix_cons_iff, not_or] at hcs
    rw [spell_cons]
    by_cases hc : c = b
    · rw [if_pos hc, replaceAll_append hne, ih hcs.2, hc]
      rfl
    · rw [if_neg hc, singleton_append]
      rw [replaceAll_cons, ih hcs.2]
      -- an occurrence that starts at `c` would lie in the text before it was spelled
      intro h
      obtain ⟨d, rest, rfl⟩ := exists_cons_of_ne_nil hne
      obtain ⟨rfl, hrest⟩ := cons_prefix_cons.mp h
      refine hcs.1 (cons_prefix_cons.mpr ⟨rfl, ?_⟩)
      refine prefix_of_prefix_spell hword (suffix_cons d rest) ?_ hrest
      intro heq
      exact absurd (congrArg List.length heq) (by simp)

end Cppward.Text
