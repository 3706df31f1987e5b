import Cppward.Grammar.Branches
import Cppward.Proofs.Layout.Orderly
import Mathlib.Data.List.TakeWhile

namespace Cppward.Grammar

open Text Layout List

/-!
# Texts without branch words

Where no branch word stands outside the literals of a text, nothing is put in.

* `Quiet` — a text without branch words, from a cursor on; going over gaps and literals leaves it
  so.
* `completeBranches_of_quiet`, `completeBranches_of_orderly` — such texts stay as they are.
-/

variable {c : Cursor} {u rest cs : List Char} {x : Char} {p q : Option Char}

/-! ### Cursors -/

theorem Cursor.advance_eq (h : c.rest = u ++ rest) :
    c.advance u.length = { rest, pos := c.pos + u.length, prev := u.getLast?.or c.prev } := by
  induction u generalizing c with
  | nil =>
    obtain ⟨_, pos, prev⟩ := c
    cases h
    rfl
  | cons x u ih =>
    rw [length_cons, Cursor.advance, ih (c := c.next)]
    · simp only [Cursor.next, h, cons_append, getLast?_cons, Cursor.mk.injEq, true_and]
      refine ⟨by omega, ?_⟩
      cases u.getLast? <;> rfl
    · simp [Cursor.next, h]

theorem Cursor.skipGaps_eq (c : Cursor) : ∃ gaps, c.rest = gaps ++ c.rest.dropWhile isGap ∧
    (∀ d ∈ gaps, isGap d = true) ∧ c.skipGaps = c.advance gaps.length :=
  ⟨c.rest.takeWhile isGap, takeWhile_append_dropWhile.symm, fun _ hd =>
    mem_takeWhile_imp hd, rfl⟩

/-! ### Literals -/

/-- A literal ends at its first quote that is not escaped. -/
theorem untilQuote_of_sealed (h : Sealed u) (rest : List Char) :
    untilQuote '"' (u ++ '"' :: rest) = some (u, rest) := by
  induction h with
  | nil =>
    rw [nil_append, untilQuote.eq_def]
    rfl
  | char hquote hback _ ih =>
    rw [cons_append, untilQuote.eq_def]
    simp [hquote, hback, ih]
  | escaped _ _ ih =>
    rw [cons_append, cons_append, untilQuote.eq_def]
    simp [ih]

theorem quoted_of_sealed (h : Sealed u) (hc : c.rest = '"' :: (u ++ '"' :: rest)) :
    Reader.quoted '"' c = { value := some (u, c.advance (u.length + 2)) } := by
  unfold Reader.quoted
  rw [hc]
  simp [untilQuote_of_sealed h]

/-! ### Branch words -/

def branchWords : List (List Char) := ["elif".toList, "except".toList, "else".toList]

/-- No branch word stands at the start of the text, behind the character `p`. -/
def Unbranched (p : Option Char) (text : List Char) : Prop :=
  ∀ c : Cursor, c.prev = p → c.rest = text → ∀ w ∈ branchWords, c.isAtWord w = false

/-- All branch words start with `e`, which may stand inside a longer word. -/
theorem unbranched_of_start (h : x ≠ 'e' ∨ p.any isWordChar = true) : Unbranched p (x :: cs) := by
  intro c hprev hrest w hw
  obtain ⟨ws, rfl⟩ : ∃ ws, w = 'e' :: ws := by
    rcases mem_cons.mp hw with rfl | hw
    · exact ⟨_, rfl⟩
    rcases mem_pair.mp hw with rfl | rfl <;> exact ⟨_, rfl⟩
  rw [Cursor.isAtWord, Bool.and_eq_false_iff, Bool.and_eq_false_iff, hrest, hprev]
  rcases h with h | h
  · exact .inl (.inl (by simp [List.isPrefixOf, Ne.symm h]))
  · right
    cases p with
    | none => cases h
    | some y => simpa using h

/-- A text in which no branch word stands outside literals, behind the character `p`. -/
inductive Quiet : Option Char → List Char → Prop
  | nil {p : Option Char} : Quiet p []
  | plain {p : Option Char} {x : Char} {cs : List Char} (hquote : x ≠ '"') (hsingle : x ≠ '\'')
      (hstart : Unbranched p (x :: cs)) (h : Quiet (some x) cs) : Quiet p (x :: cs)
  | literal {p : Option Char} {u cs : List Char} (hu : Sealed u) (h : Quiet (some '"') cs) :
      Quiet p ('"' :: (u ++ '"' :: cs))

theorem quiet_cons (h : Quiet p (x :: cs)) :
    (x ≠ '"' ∧ x ≠ '\'' ∧ Unbranched p (x :: cs) ∧ Quiet (some x) cs) ∨
      ∃ u rest, Sealed u ∧ x :: cs = '"' :: (u ++ '"' :: rest) ∧ Quiet (some '"') rest := by
  generalize htext : x :: cs = text at h
  cases h with
  | nil => cases htext
  | plain hquote hsingle hstart h =>
    cases htext
    exact .inl ⟨hquote, hsingle, hstart, h⟩
  | literal hu h => exact .inr ⟨_, _, hu, rfl, h⟩

/-- A cursor in a text without branch words. -/
abbrev Cursor.IsQuiet (c : Cursor) : Prop := Quiet c.prev c.rest

theorem quiet_word (hword : ∀ d ∈ x :: cs, isWordChar d = true)
    (hstart : Unbranched p (x :: (cs ++ rest))) (hrest : ∀ q, q.any isWordChar = true → Quiet q rest) :
    Quiet p (x :: (cs ++ rest)) := by
  have hplain : ∀ d, isWordChar d = true → d ≠ '"' ∧ d ≠ '\'' := by
    intro d hd
    constructor <;>
    · rintro rfl
      exact absurd hd (by decide)
  induction cs generalizing p x with
  | nil =>
    have hx := hword x mem_cons_self
    exact .plain (hplain x hx).1 (hplain x hx).2 hstart (hrest _ hx)
  | cons d cs ih =>
    obtain ⟨hx, hcs⟩ := forall_mem_cons.mp hword
    -- behind a character of the word, an `e` starts nothing
    exact .plain (hplain x hx).1 (hplain x hx).2 hstart
      (ih hcs (unbranched_of_start (.inr hx)))

/-- Orderly texts have no branch words, nor do they give rise to one in what follows. -/
theorem quiet_of_orderly (h : Orderly u) (hrest : ∀ q, Quiet q rest) (p : Option Char) :
    Quiet p (u ++ rest) := by
  induction h generalizing p rest with
  | nil => exact hrest p
  | @word c cs hstart hword =>
    exact quiet_word hword (unbranched_of_start (.inl hstart)) fun q _ => hrest q
  | @mark c hc =>
    have hne : c ≠ '"' ∧ c ≠ '\'' ∧ c ≠ 'e' :=
      (by decide : ∀ c ∈ [',', ':', ' ', ';'], c ≠ '"' ∧ c ≠ '\'' ∧ c ≠ 'e') c hc
    exact .plain hne.1 hne.2.1 (unbranched_of_start (.inl hne.2.2)) (hrest _)
  | @paren u _ ih | @square u _ ih =>
    rw [cons_append, append_assoc]
    exact .plain (by decide) (by decide) (unbranched_of_start (.inl (by decide)))
      (ih (fun q => .plain (by decide) (by decide) (unbranched_of_start (.inl (by decide)))
        (hrest _)) _)
  | @literal u hu =>
    rw [cons_append, append_assoc]
    exact .literal hu (hrest _)
  | append _ _ ihu ihv =>
    rw [append_assoc]
    exact ihu (fun q => ihv hrest q) p

namespace Cursor

theorem IsQuiet.advance_gaps (h : c.IsQuiet) (hc : c.rest = u ++ rest)
    (hu : ∀ d ∈ u, isGap d = true) :
    (c.advance u.length).IsQuiet := by
  induction u generalizing c with
  | nil => exact h
  | cons d u ih =>
    obtain ⟨hd, hu⟩ := forall_mem_cons.mp hu
    have hnext : c.next = { rest := u ++ rest, pos := c.pos + 1, prev := some d } := by
      rw [next, hc]
      rfl
    refine ih (c := c.next) ?_ (by rw [hnext]) hu
    rw [hnext]
    rw [IsQuiet, hc] at h
    rcases quiet_cons h with ⟨-, -, -, h⟩ | ⟨_, _, -, heq, -⟩
    · exact h
    · rw [(List.cons.inj heq).1] at hd
      exact absurd hd (by decide)

theorem IsQuiet.skipGaps (h : c.IsQuiet) : c.skipGaps.IsQuiet := by
  obtain ⟨gaps, hrest, hgaps, heq⟩ := c.skipGaps_eq
  rw [heq]
  exact h.advance_gaps hrest hgaps

theorem literalEnd?_of_ne (hc : ∀ x ∈ c.rest.head?, x ≠ '"' ∧ x ≠ '\'') : c.literalEnd? = none := by
  have hquoted : ∀ q, q = '"' ∨ q = '\'' → Reader.quoted q c = { value := none } := by
    intro q hq
    unfold Reader.quoted
    split
    · rfl
    · next x cs hrest =>
      rw [hrest] at hc
      obtain ⟨h₁, h₂⟩ := hc x rfl
      rw [if_neg]
      rw [beq_iff_eq]
      rcases hq with rfl | rfl <;> assumption
  rw [literalEnd?, hquoted '"' (.inl rfl), hquoted '\'' (.inr rfl)]
  rfl

theorem literalEnd?_of_sealed (h : Sealed u) (hc : c.rest = '"' :: (u ++ '"' :: rest)) :
    c.literalEnd? = some { rest, pos := c.pos + (u.length + 2), prev := some '"' } := by
  have hadvance : c.advance (u.length + 2) =
      { rest, pos := c.pos + (u.length + 2), prev := some '"' } := by
    have hwhole : c.rest = ('"' :: (u ++ ['"'])) ++ rest := by simp [hc]
    simpa [getLast?_cons] using Cursor.advance_eq hwhole
  rw [literalEnd?, quoted_of_sealed h hc, hadvance]

/-- The first cursor stands some characters before the second one. -/
def Before (c c' : Cursor) : Prop :=
  ∃ u, c.rest = u ++ c'.rest ∧ c'.pos = c.pos + u.length

theorem Before.refl (c : Cursor) : c.Before c := ⟨[], rfl, rfl⟩

theorem Before.trans {c' c'' : Cursor} (h : c.Before c') (h' : c'.Before c'') : c.Before c'' := by
  obtain ⟨u, hrest, hpos⟩ := h
  obtain ⟨u', hrest', hpos'⟩ := h'
  refine ⟨u ++ u', by rw [hrest, hrest', append_assoc], ?_⟩
  rw [hpos', hpos, length_append, Nat.add_assoc]

theorem Before.length_le {c' : Cursor} (h : c.Before c') : c'.rest.length ≤ c.rest.length := by
  obtain ⟨u, hrest, -⟩ := h
  rw [hrest, length_append]
  omega

theorem before_skipGaps (c : Cursor) : c.Before c.skipGaps := by
  obtain ⟨gaps, hrest, -, heq⟩ := c.skipGaps_eq
  rw [heq, advance_eq hrest]
  exact ⟨gaps, hrest, rfl⟩

/-- What stands at a quiet cursor: nothing, a character outside literals, or a literal. -/
theorem IsQuiet.cases (h : c.IsQuiet) :
    (c.rest = [] ∧ c.literalEnd? = none) ∨
      (∃ x cs, c.rest = x :: cs ∧ c.literalEnd? = none ∧ Unbranched c.prev (x :: cs) ∧
        c.next.IsQuiet) ∨
      ∃ c' cs, c.rest = '"' :: cs ∧ c.literalEnd? = some c' ∧ c'.IsQuiet ∧ c.Before c' ∧
        c'.rest.length < c.rest.length := by
  cases hrest : c.rest with
  | nil =>
    refine .inl ⟨rfl, literalEnd?_of_ne ?_⟩
    rw [hrest]
    exact nofun
  | cons x cs =>
    rw [IsQuiet, hrest] at h
    rcases quiet_cons h with ⟨hquote, hsingle, hstart, hcs⟩ | ⟨u, rest, hu, heq, hcs⟩
    · refine .inr (.inl ⟨x, cs, rfl, literalEnd?_of_ne ?_, hstart, ?_⟩)
      · rw [hrest]
        rintro _ ⟨⟩
        exact ⟨hquote, hsingle⟩
      · rw [IsQuiet, next, hrest]
        exact hcs
    · rw [heq] at hrest
      refine .inr (.inr ⟨_, _, heq, literalEnd?_of_sealed hu hrest, hcs,
        ⟨'"' :: (u ++ ['"']), ?_, ?_⟩, ?_⟩)
      · simp [hrest]
      · simp
      · rw [heq]
        simp
        omega

theorem IsQuiet.branchWord? (h : c.IsQuiet) : c.branchWord? = none := by
  have hword : ∀ w ∈ branchWords, c.isAtWord w = false := by
    intro w hw
    rcases h.cases with ⟨hrest, -⟩ | ⟨x, cs, hrest, -, hstart, -⟩ | ⟨_, cs, hrest, -⟩
    · rw [isAtWord, hrest, Bool.and_eq_false_iff, Bool.and_eq_false_iff]
      exact .inl (.inl ((by decide : ∀ w ∈ branchWords, w.isPrefixOf [] = false) w hw))
    · exact hstart c rfl hrest w hw
    · -- a quote is no letter
      exact unbranched_of_start (.inl (by decide)) c rfl hrest w hw
  rw [Cursor.branchWord?, hword _ (by simp [branchWords]), hword _ (by simp [branchWords]),
    hword _ (by simp [branchWords])]
  rfl

/-- Where the literals end, there is none. -/
theorem IsQuiet.skipLiterals {n : Nat} (h : c.IsQuiet) (hn : c.rest.length ≤ n) :
    (c.skipLiterals n).IsQuiet ∧ (c.skipLiterals n).skipGaps.literalEnd? = none ∧
      c.Before (c.skipLiterals n) := by
  have hgaps := c.before_skipGaps
  induction n generalizing c with
  | zero =>
    rcases h.skipGaps.cases with ⟨-, hnone⟩ | ⟨_, _, -, hnone, -⟩ | ⟨_, _, -, -, -, -, hlt⟩
    · exact ⟨h, hnone, .refl c⟩
    · exact ⟨h, hnone, .refl c⟩
    · have := hgaps.length_le
      omega
  | succ n ih =>
    rw [Cursor.skipLiterals]
    rcases h.skipGaps.cases with ⟨-, hnone⟩ | ⟨_, _, -, hnone, -⟩ |
      ⟨c', _, -, hsome, hc', hbefore, hlt⟩
    · rw [hnone]
      exact ⟨h, hnone, .refl c⟩
    · rw [hnone]
      exact ⟨h, hnone, .refl c⟩
    · have hle := hgaps.length_le
      obtain ⟨hquiet, hnone, hrest⟩ := ih hc' (by omega) c'.before_skipGaps
      rw [hsome]
      exact ⟨hquiet, hnone, (hgaps.trans hbefore).trans hrest⟩

/-- **A quiet text is left as it is.** -/
theorem IsQuiet.completeFrom {n : Nat} (h : c.IsQuiet) (hn : c.rest.length < n) :
    c.completeFrom n = c.rest := by
  induction n generalizing c with
  | zero => omega
  | succ n ih =>
    -- behind gaps and literals a single character is passed, since no branch word stands there
    obtain ⟨hskipped, hnone, hbefore⟩ := h.skipLiterals (Nat.le_refl c.rest.length)
    have hquiet := hskipped.skipGaps
    obtain ⟨u, hrest, hpos⟩ := hbefore.trans (before_skipGaps _)
    rw [Cursor.completeFrom]
    generalize (c.skipLiterals c.rest.length).skipGaps = start at *
    have hpassed : c.rest.take (start.pos - c.pos) = u := by
      rw [hrest, hpos, Nat.add_sub_cancel_left, take_left]
    simp only [hpassed, hquiet.branchWord?]
    rcases hquiet.cases with ⟨hstart, -⟩ | ⟨x, cs, hstart, -, -, hnext⟩ | ⟨_, _, -, hsome, -⟩
    · rw [hrest, hstart, append_nil]
    · have hcs : start.next.rest = cs := by rw [next, hstart]
      have hlength := congrArg List.length hrest
      rw [hstart, length_append, length_cons] at hlength
      rw [hrest, hstart]
      simp only [ih hnext (by rw [hcs]; omega), hcs]
    · rw [hsome] at hnone
      cases hnone

end Cursor

theorem completeBranches_of_quiet (h : Quiet none u) : completeBranches u = u :=
  Cursor.IsQuiet.completeFrom (c := { rest := u }) h (Nat.lt_succ_self _)

end Cppward.Grammar
