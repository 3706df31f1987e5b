import Cppward.Layout.Block
import Mathlib.Data.List.Nodup

namespace Cppward.Layout

open Text List

/-!
# Hidden statements

A layout can hide statements: a line that is a whole statement is then written as a stand-in.  Only
the whole text depends on this.

* `Piece` — what is written at one place of the whole text, where statements are hidden and where
  they are not.
* `Hides` — the states of two layouts, of which the first one hides statements; every line keeps
  this (`Hides.line`).
* `layout_hide` — both layouts fail alike, or have the same blocks, and the whole text of the one is
  that of the other with stand-ins for statements.
-/

variable {ε α β γ δ : Type}

/-- Both computations fail alike, or both succeed with results that are related. -/
inductive Agree (R : α → β → Prop) : Except ε α → Except ε β → Prop
  | error (e : ε) : Agree R (.error e) (.error e)
  | ok {a : α} {b : β} (h : R a b) : Agree R (.ok a) (.ok b)

theorem Agree.bind {R : α → β → Prop} {S : γ → δ → Prop} {x : Except ε α} {y : Except ε β}
    {f : α → Except ε γ} {g : β → Except ε δ} (h : Agree R x y)
    (hf : ∀ a b, R a b → Agree S (f a) (g b)) : Agree S (x >>= f) (y >>= g) := by
  cases h with
  | error e => exact .error e
  | ok h => exact hf _ _ h

theorem Agree.cases {R : α → β → Prop} {x : Except ε α} {y : Except ε β} (h : Agree R x y) :
    (∃ e, x = .error e ∧ y = .error e) ∨ ∃ a b, x = .ok a ∧ y = .ok b ∧ R a b := by
  cases h with
  | error e => exact .inl ⟨e, rfl, rfl⟩
  | ok h => exact .inr ⟨_, _, rfl, rfl, h⟩

theorem Agree.refl (x : Except ε α) : Agree Eq x x := by
  cases x with
  | error e => exact .error e
  | ok a => exact .ok rfl

/-! ### Pieces -/

/-- What is written at one place: a text in any case, or a statement or its stand-in. -/
inductive Piece where
  | text (cs : List Char)
  | statement (mark cs : List Char)

namespace Piece

/-- The piece where nothing is hidden. -/
def shown : Piece → List Char
  | text cs | statement _ cs => cs

/-- The piece where statements are hidden. -/
def covered : Piece → List Char
  | text cs => cs
  | statement mark _ => mark

/-- A stand-in and the statement that it stands for. -/
def entry? : Piece → Option (List Char × List Char)
  | text _ => none
  | statement mark cs => some (mark, cs)

end Piece

theorem toDigits_injective {a b : Nat} (h : Nat.toDigits 10 a = Nat.toDigits 10 b) : a = b := by
  calc
    a = Nat.ofDigitChars 10 (Nat.toDigits 10 a) 0 := Nat.ofDigitChars_ten_toDigits.symm
    _ = Nat.ofDigitChars 10 (Nat.toDigits 10 b) 0 := by rw [h]
    _ = b := Nat.ofDigitChars_ten_toDigits

theorem standIn_eq (line col : Nat) : standIn line col =
    "ceto_priv_dummy".toList ++ (Nat.toDigits 10 line ++ 'c' :: (Nat.toDigits 10 col ++ [';'])) := by
  rw [standIn]
  simp only [String.toList_append, toString, Nat.toList_repr]
  simp

/-- A stand-in tells the line that it stands on. -/
theorem standIn_inj {line line' col col' : Nat} (h : standIn line col = standIn line' col') :
    line = line' := by
  rw [standIn_eq, standIn_eq, append_cancel_left_eq] at h
  have hdigits (k : Nat) : ∀ d ∈ Nat.toDigits 10 k, (d != 'c') = true := by
    rintro d hd
    have hdigit : d.isDigit = true := Nat.isDigit_of_mem_toDigits (by decide) (by decide) hd
    rw [bne_iff_ne]
    rintro rfl
    exact absurd hdigit (by decide)
  have htake (k : Nat) (cs : List Char) :
      (Nat.toDigits 10 k ++ 'c' :: cs).takeWhile (· != 'c') = Nat.toDigits 10 k := by
    rw [takeWhile_append_of_pos (hdigits k), takeWhile_cons]
    simp
  have := congrArg (takeWhile (· != 'c')) h
  rw [htake, htake] at this
  exact toDigits_injective this

/-! ### Lines -/

variable {p q : Progress} {number : Nat} {pieces : List Piece}

/-- Before line `number`, the pieces have been written; `p` hides statements and `q` does not. -/
structure Hides (number : Nat) (pieces : List Piece) (p q : Progress) : Prop where
  plain : q = { p with whole := pieces.flatMap Piece.shown, hidden := [] }
  whole : p.whole = pieces.flatMap Piece.covered
  hidden : p.hidden.reverse = pieces.filterMap Piece.entry?
  distinct : (p.hidden.map Prod.fst).Nodup
  earlier : ∀ entry ∈ p.hidden, ∃ line col, line < number ∧ entry.1 = standIn line col

namespace Hides

variable {p' q' : Progress}

theorem text (h : Hides number pieces p q) (cs : List Char)
    (hplain : q' = { p' with whole := q.whole ++ cs, hidden := [] })
    (hwhole : p'.whole = p.whole ++ cs) (hhidden : p'.hidden = p.hidden) :
    Hides number (pieces ++ [.text cs]) p' q' where
  plain := by simp [hplain, h.plain, Piece.shown]
  whole := by simp [hwhole, h.whole, Piece.covered]
  hidden := by simp [hhidden, h.hidden, Piece.entry?]
  distinct := hhidden ▸ h.distinct
  earlier := hhidden ▸ h.earlier

theorem succ (h : Hides number pieces p q) : Hides (number + 1) pieces p q := by
  refine { h with earlier := fun entry hentry => ?_ }
  obtain ⟨line, col, hline, hmark⟩ := h.earlier entry hentry
  exact ⟨line, col, Nat.lt_succ_of_lt hline, hmark⟩

theorem statement (h : Hides number pieces p q) {col : Nat} {mark : List Char} (cs : List Char)
    (hmark : standIn number col = mark)
    (hplain : q' = { p' with whole := q.whole ++ cs, hidden := [] })
    (hwhole : p'.whole = p.whole ++ mark) (hhidden : p'.hidden = (mark, cs) :: p.hidden) :
    Hides (number + 1) (pieces ++ [.statement mark cs]) p' q' where
  plain := by simp [hplain, h.plain, Piece.shown]
  whole := by simp [hwhole, h.whole, Piece.covered]
  hidden := by simp [hhidden, h.hidden, Piece.entry?]
  distinct := by
    rw [hhidden, map_cons, nodup_cons]
    refine ⟨fun hmem => ?_, h.distinct⟩
    obtain ⟨entry, hentry, heq : entry.1 = mark⟩ := mem_map.mp hmem
    obtain ⟨line, col', hline, hentry⟩ := h.earlier entry hentry
    rw [hentry, ← hmark] at heq
    exact Nat.ne_of_lt hline (standIn_inj heq)
  earlier := by
    rw [hhidden, forall_mem_cons]
    refine ⟨⟨number, col, Nat.lt_succ_self number, ?_⟩, h.succ.earlier⟩
    rw [hmark]

/-- A line is covered in one layout and shown in the other, or shown in both. -/
theorem fullLine (h : Hides number pieces p q) (raw : List Char) :
    Agree (fun p' q' => ∃ pieces', Hides (number + 1) pieces' p' q')
      (p.fullLine true number raw) (q.fullLine false number raw) := by
  obtain ⟨whole, rfl⟩ : ∃ whole, q = { p with whole, hidden := [] } := ⟨_, h.plain⟩
  unfold Progress.fullLine
  refine .bind (.refl _) ?_
  rintro stack _ rfl
  refine .bind (.refl _) ?_
  rintro ⟨scan, stop⟩ _ rfl
  -- the margin is written in any case, and the line behind it as the stack says
  generalize hwidth : (raw.takeWhile (· == ' ')).length = width
  have h₁ : Hides number (pieces ++ [.text ('\n' :: List.replicate width ' ')])
      { p with whole := p.whole ++ '\n' :: List.replicate width ' ' }
      { p with whole := whole ++ '\n' :: List.replicate width ' ', hidden := [] } :=
    h.text _ rfl rfl rfl
  dsimp only
  split
  · exact .ok ⟨_, .succ (.text h₁ (scan.written.reverse ++ [blockMark]) rfl rfl rfl)⟩
  split
  · cases stack.head? == some .indent with
    | true =>
      generalize hmark : standIn number (stop + width) = mark
      exact .ok ⟨_, .statement h₁ (scan.written.reverse ++ [';']) hmark rfl rfl rfl⟩
    | false => exact .ok ⟨_, .succ (.text h₁ (scan.written.reverse ++ [';']) rfl rfl rfl)⟩
  · exact .ok ⟨_, .succ (.text h₁ scan.written.reverse rfl rfl rfl)⟩

theorem line (h : Hides number pieces p q) (raw : List Char) :
    Agree (fun p' q' => ∃ pieces', Hides (number + 1) pieces' p' q')
      (p.line true number raw) (q.line false number raw) := by
  unfold Progress.line
  dsimp only
  split
  · obtain ⟨whole, rfl⟩ : ∃ whole, q = { p with whole, hidden := [] } := ⟨_, h.plain⟩
    exact .ok ⟨_, .succ (.text h ['\n'] rfl rfl rfl)⟩
  · rcases (h.fullLine (stripRight raw)).cases with ⟨e, hp, hq⟩ | ⟨p', q', hp, hq, h⟩
    · rw [hp, hq]
      exact .error _
    · rw [hp, hq]
      exact .ok h

theorem lines (h : Hides number pieces p q) (raws : List (List Char)) :
    Agree (fun x y => x.2 = y.2 ∧ ∃ number' pieces', Hides number' pieces' x.1 y.1)
      (p.lines true number raws) (q.lines false number raws) := by
  induction raws generalizing p q number pieces with
  | nil => exact .ok ⟨rfl, number, pieces, h⟩
  | cons raw raws ih =>
    refine (h.line raw).bind fun p' q' h' => ?_
    obtain ⟨pieces', h'⟩ := h'
    exact ih h'

end Hides

/-- The first of two layouts has stand-ins where the second one has statements. -/
structure Covers (l l' : Arrangement) : Prop where
  blocks : l.blocks = l'.blocks
  pieces : ∃ pieces : List Piece, l.whole = pieces.flatMap Piece.covered ∧
    l'.whole = pieces.flatMap Piece.shown ∧ l.hidden = pieces.filterMap Piece.entry?
  distinct : (l.hidden.map Prod.fst).Nodup
  hidden : l'.hidden = []

theorem covers_layout (text : List Char) :
    Agree Covers (layout text true) (layout text false) := by
  have hstart : Hides 1 [] {} {} := ⟨rfl, rfl, rfl, .nil, nofun⟩
  refine (hstart.lines (Text.lines text)).bind ?_
  rintro ⟨p, last⟩ ⟨q, _⟩ ⟨rfl, number, pieces, h⟩
  obtain ⟨whole, rfl⟩ : ∃ whole, q = { p with whole, hidden := [] } := ⟨_, h.plain⟩
  dsimp only
  split
  · exact .error _
  · refine .ok ⟨rfl, ⟨pieces, h.whole, congrArg Progress.whole h.plain, h.hidden⟩, ?_, rfl⟩
    rw [map_reverse, nodup_reverse]
    exact h.distinct

/-- Whether statements are hidden does not change the blocks. -/
theorem exists_layout {text : List Char} {hide : Bool} {l : Arrangement}
    (h : layout text hide = .ok l) (hide' : Bool) :
    ∃ l', layout text hide' = .ok l' ∧ l'.blocks = l.blocks := by
  rcases (covers_layout text).cases with ⟨e, hcovered, hshown⟩ | ⟨l₁, l₂, hcovered, hshown, hcovers⟩
  · cases hide
    · cases hshown.symm.trans h
    · cases hcovered.symm.trans h
  · have hblocks : l₁.blocks = l.blocks := by
      cases hide
      · cases hshown.symm.trans h
        exact hcovers.blocks
      · cases hcovered.symm.trans h
        rfl
    cases hide'
    · exact ⟨l₂, hshown, hcovers.blocks.symm.trans hblocks⟩
    · exact ⟨l₁, hcovered, hblocks⟩

/-- **Hiding changes only the whole text.**  With and without it a text is refused with the same
    error, or it has the same blocks; and where a stand-in was written, the statement that is kept
    for it is what is written otherwise.  No two stand-ins are the same. -/
theorem layout_hide (text : List Char) :
    (∃ e, layout text true = .error e ∧ layout text false = .error e) ∨
      ∃ l l', layout text true = .ok l ∧ layout text false = .ok l' ∧ Covers l l' :=
  (covers_layout text).cases

end Cppward.Layout
