import Cppward.Proofs.Layout.Hiding
import Cppward.Proofs.Layout.Splitting

namespace Cppward.Layout

open Text List

/-!
# Literals in a layout

A literal may span many lines.  Its lines are trimmed like any other lines: blanks before a newline
are dropped, and so are blank lines; all else that stands between the quotes is kept, the leading
spaces of its lines included.

* `Quotes`, `literals` — the contents of the literals of a text, outside its comments.
* `settle` — a text without the blanks that are followed by a newline, with nothing but blanks
  between; `settle_eq_self_iff` says which texts are left alone.
* `Settles`, `SettlesOn` — how the contents read so far and those written so far continue.
* `Alike`, `Apart` — a text and its block in the middle of a line, and between two lines.  A
  character keeps the one (`Alike.step`), a line the other (`Progress.Reads.line`).
* `literals_of_layout` — the literals of the blocks are those of the text, settled.
-/

variable {text : List Char} {raws : List (List Char)} {last : Nat} {hide : Bool}
variable {u v w x added : List Char} {c q : Char} {m : Marks} {a b : Quotes}
  {found : List (List Char)} {s s' : Scan} {back ahead : List Char} {p p' : Progress}
  {raw : List Char} {number : Nat}

/-! ### The literals of a text -/

/-- What has been met in a text so far. -/
structure Quotes where
  /-- The quote of the literal that is open. -/
  literal : Option Char := none
  /-- A comment is open, which ends with its line. -/
  comment : Bool := false
  /-- The contents of the open literal, last character first. -/
  back : List Char := []
  /-- The contents of the literals that are closed. -/
  found : List (List Char) := []

/-- The effect of a character. -/
def Quotes.step (a : Quotes) (c : Char) : Quotes :=
  match a.literal with
  | some quote =>
    if c == quote && !isEscaped a.back then
      { a with literal := none, back := [], found := a.found ++ [a.back.reverse] }
    else { a with back := c :: a.back }
  | none =>
    if a.comment then { a with comment := c != '\n' }
    else if isQuote c then { a with literal := some c, back := [] }
    else { a with comment := c == '#' }

def quotes (text : List Char) : Quotes := text.foldl Quotes.step {}

def literals (text : List Char) : List (List Char) := (quotes text).found

theorem quotes_append (text more : List Char) :
    quotes (text ++ more) = more.foldl Quotes.step (quotes text) := foldl_append

namespace Quotes

theorem step_inside (h : a.literal = some q) (hopen : (c == q && !isEscaped a.back) = false) :
    a.step c = { a with back := c :: a.back } := by
  simp [step, h, hopen]

theorem step_of_ne (h : a.literal = some q) (hc : c ≠ q) : a.step c = { a with back := c :: a.back } :=
  step_inside h (by rw [beq_eq_false_iff_ne.mpr hc, Bool.false_and])

theorem step_close (h : a.literal = some q) (hclose : (c == q && !isEscaped a.back) = true) :
    a.step c = { a with literal := none, back := [], found := a.found ++ [a.back.reverse] } := by
  simp [step, h, hclose]

theorem step_open (h : a.literal = none) (hcode : a.comment = false) (hquote : isQuote c = true) :
    a.step c = { a with literal := some c, back := [] } := by
  simp [step, h, hcode, hquote]

theorem step_code (h : a.literal = none) (hcode : a.comment = false) (hquote : isQuote c = false)
    (hhash : c ≠ '#') : a.step c = a := by
  obtain ⟨literal, comment, contents, all⟩ := a
  cases h
  cases hcode
  simp [step, hquote, beq_eq_false_iff_ne.mpr hhash]

theorem foldl_comment {line : List Char} (h : a.literal = none) (hcomment : a.comment = true) (hline : '\n' ∉ line) :
    (line ++ ['\n']).foldl step a = { a with comment := false } := by
  induction line with
  | nil => simp [step, h, hcomment]
  | cons c line ih =>
    rw [mem_cons, not_or] at hline
    have hstep : a.step c = a := by
      have hne : (c != '\n') = true := bne_iff_ne.mpr (Ne.symm hline.1)
      obtain ⟨literal, comment, contents, all⟩ := a
      cases h
      cases hcomment
      simp [step, hne]
    rw [cons_append, foldl_cons, hstep, ih hline.2]

theorem foldl_hash {line : List Char} (h : a.literal = none) (hcode : a.comment = false) (hline : '\n' ∉ line) :
    ('#' :: (line ++ ['\n'])).foldl step a = a := by
  obtain ⟨literal, comment, contents, all⟩ := a
  cases h
  cases hcode
  exact foldl_comment rfl rfl hline

theorem foldl_blank_code (h : a.literal = none) (hcode : a.comment = false)
    (hblank : allBlank w = true) : w.foldl step a = a := by
  induction w with
  | nil => rfl
  | cons c w ih =>
    rw [allBlank, all_cons, Bool.and_eq_true] at hblank
    have hhash : c ≠ '#' := ne_of_isBlank hblank.1 (by decide)
    rw [foldl_cons, step_code h hcode (isQuote_of_isBlank hblank.1) hhash, ih hblank.2]

theorem foldl_blank_inside (h : a.literal = some q) (hq : isQuote q = true)
    (hblank : allBlank w = true) :
    w.foldl step a = { a with back := w.reverse ++ a.back } := by
  induction w generalizing a with
  | nil => rfl
  | cons c w ih =>
    rw [allBlank, all_cons, Bool.and_eq_true] at hblank
    have hne : c ≠ q := by
      rintro rfl
      cases (isQuote_of_isBlank hblank.1).symm.trans hq
    have hrest := ih (show ({ a with back := c :: a.back } : Quotes).literal = some q from h) hblank.2
    rw [foldl_cons, step_of_ne h hne, hrest]
    simp

/-- Every open literal was opened by a quote. -/
theorem isQuote_of_quotes (text : List Char) : ∀ q ∈ (quotes text).literal, isQuote q = true := by
  suffices h : ∀ a : Quotes, (∀ q ∈ a.literal, isQuote q = true) →
      ∀ q ∈ (text.foldl step a).literal, isQuote q = true from h {} nofun
  induction text with
  | nil => exact fun _ h => h
  | cons c text ih =>
    intro a h
    refine ih _ fun q hq => ?_
    rw [step] at hq
    split at hq
    · next quote hquote =>
      split at hq
      · cases hq
      · exact h q hq
    · next hnone =>
      split at hq
      · exact h q hq
      · split at hq
        · next hc =>
          cases hq
          exact hc
        · exact h q hq

end Quotes

/-! ### Blanks before newlines -/

/-- Nothing but blanks stands before the next newline. -/
def endsLine : List Char → Bool
  | [] => false
  | c :: cs => c == '\n' || isBlank c && endsLine cs

/-- Drops the blanks that are followed by a newline, with nothing but blanks between. -/
def settle : List Char → List Char
  | [] => []
  | c :: cs => if isBlank c && endsLine cs then settle cs else c :: settle cs

theorem length_settle_le : ∀ u : List Char, (settle u).length ≤ u.length
  | [] => Nat.le_refl 0
  | c :: cs => by
    have ih := length_settle_le cs
    unfold settle
    split <;> simp only [length_cons] <;> omega

/-- A text is left alone if its first character is, and the rest. -/
theorem settle_cons_eq_self_iff :
    settle (c :: u) = c :: u ↔ (isBlank c && endsLine u) = false ∧ settle u = u := by
  rw [settle]
  by_cases h : (isBlank c && endsLine u) = true
  · have hlength := length_settle_le u
    rw [if_pos h, h]
    constructor
    · intro heq
      have := congrArg List.length heq
      rw [length_cons] at this
      omega
    · exact fun h => absurd h.1 (by decide)
  · rw [if_neg h, List.cons.injEq]
    simp [h]

/-- In a text that is left alone, only a newline ends the line at once. -/
theorem endsLine_of_settle_eq (h : settle u = u) : endsLine u = true ↔ ['\n'] <+: u := by
  cases u with
  | nil => simp [endsLine]
  | cons c u =>
    have hdrop := (settle_cons_eq_self_iff.mp h).1
    rw [endsLine, hdrop, Bool.or_false, beq_iff_eq, cons_prefix_cons]
    simp [eq_comm]

/-- **What is left alone**: the texts in which no newline follows a blank. -/
theorem settle_eq_self_iff (u : List Char) :
    settle u = u ↔ ∀ c, isBlank c = true → ¬ [c, '\n'] <:+: u := by
  induction u with
  | nil => simp [settle]
  | cons d u ih =>
    rw [settle_cons_eq_self_iff]
    constructor
    · rintro ⟨hdrop, hrest⟩ c hc hinfix
      rcases infix_cons_iff.mp hinfix with hprefix | hinfix
      · obtain ⟨rfl, hnewline⟩ := cons_prefix_cons.mp hprefix
        rw [hc, (endsLine_of_settle_eq hrest).mpr hnewline] at hdrop
        cases hdrop
      · exact ih.mp hrest c hc hinfix
    · intro h
      have hrest : settle u = u :=
        ih.mpr fun c hc hinfix => h c hc (infix_cons_iff.mpr (.inr hinfix))
      refine ⟨?_, hrest⟩
      by_contra hdrop
      rw [Bool.not_eq_false, Bool.and_eq_true] at hdrop
      refine h d hdrop.1 (List.IsPrefix.isInfix ?_)
      exact cons_prefix_cons.mpr ⟨rfl, (endsLine_of_settle_eq hrest).mp hdrop.2⟩

/-- Whatever follows, `u` has settled as `v`. -/
def Settles (u v : List Char) : Prop := ∀ x, settle (u ++ x) = v ++ settle x

/-- The same, if the line does not end after blanks. -/
def SettlesOn (u v : List Char) : Prop := ∀ x, endsLine x = false → settle (u ++ x) = v ++ settle x

theorem endsLine_append_blank (h : allBlank w = true) (x : List Char) :
    endsLine x = true → endsLine (w ++ x) = true := by
  induction w with
  | nil => exact id
  | cons c w ih =>
    intro hx
    rw [allBlank, all_cons, Bool.and_eq_true] at h
    simp [endsLine, h.1, ih h.2 hx]

theorem settle_blank_newline (h : allBlank w = true) (x : List Char) :
    settle (w ++ '\n' :: x) = settle ('\n' :: x) := by
  induction w with
  | nil => rfl
  | cons c w ih =>
    rw [allBlank, all_cons, Bool.and_eq_true] at h
    have hends : endsLine (w ++ '\n' :: x) = true := endsLine_append_blank h.2 _ (by simp [endsLine])
    rw [cons_append, settle, h.1, hends, Bool.and_self, if_pos rfl, ih h.2]

theorem settle_replicate (hx : endsLine x = false) (n : Nat) :
    settle (List.replicate n ' ' ++ x) = List.replicate n ' ' ++ settle x ∧
      endsLine (List.replicate n ' ' ++ x) = false := by
  induction n with
  | zero => exact ⟨rfl, hx⟩
  | succ n ih =>
    rw [replicate_succ, cons_append]
    constructor
    · rw [settle, ih.2, Bool.and_false, if_neg Bool.false_ne_true, ih.1, cons_append]
    · rw [endsLine, ih.2, Bool.and_false, Bool.or_false]
      decide

theorem SettlesOn.snoc (h : SettlesOn u v) (hc : c ≠ '\n') : SettlesOn (u ++ [c]) (v ++ [c]) := by
  intro x hx
  have hcx : endsLine (c :: x) = false := by simp [endsLine, hc, hx]
  rw [append_assoc, singleton_append, h _ hcx, settle, hx, Bool.and_false,
    if_neg Bool.false_ne_true, append_assoc, singleton_append]

/-- After a character that is not blank, the end of the line changes nothing before it. -/
theorem SettlesOn.settles (h : SettlesOn u v) (hc : isBlank c = false) :
    Settles (u ++ [c]) (v ++ [c]) := by
  intro x
  have hne : c ≠ '\n' := by
    rintro rfl
    exact absurd hc (by decide)
  have hcx : endsLine (c :: x) = false := by simp [endsLine, hne, hc]
  rw [append_assoc, singleton_append, h _ hcx, settle, hc, Bool.false_and,
    if_neg Bool.false_ne_true, append_assoc, singleton_append]

/-- The next line begins with a newline and its margin. -/
theorem Settles.margin (h : Settles u v) (hw : allBlank w = true) (n : Nat) :
    SettlesOn (u ++ (w ++ '\n' :: List.replicate n ' ')) (v ++ '\n' :: List.replicate n ' ') := by
  intro x hx
  obtain ⟨hmargin, hends⟩ := settle_replicate hx n
  calc settle (u ++ (w ++ '\n' :: List.replicate n ' ') ++ x)
      = settle (u ++ (w ++ '\n' :: (List.replicate n ' ' ++ x))) := by simp
    _ = v ++ settle ('\n' :: (List.replicate n ' ' ++ x)) := by rw [h, settle_blank_newline hw]
    _ = v ++ '\n' :: (List.replicate n ' ' ++ settle x) := by
      rw [settle, hends, Bool.and_false, if_neg Bool.false_ne_true, hmargin]
    _ = v ++ '\n' :: List.replicate n ' ' ++ settle x := by simp

/-! ### One line -/

/-- The contents `u` of a literal of the text and the contents `v` of its block, last character
    first, after the characters `back` of a line. -/
structure Content (back u v : List Char) : Prop where
  source : EndsAlike back u
  block : EndsAlike back v
  settlesOn : SettlesOn u.reverse v.reverse
  settles : ∀ d ∈ back.head?, isBlank d = false → Settles u.reverse v.reverse

theorem Content.cons (h : Content back u v) (hc : c ≠ '\n') :
    Content (c :: back) (c :: u) (c :: v) where
  source := h.source.cons
  block := h.block.cons
  settlesOn := by
    rw [reverse_cons, reverse_cons]
    exact h.settlesOn.snoc hc
  settles := by
    intro d hd hblank
    cases hd
    rw [reverse_cons, reverse_cons]
    exact h.settlesOn.settles hblank

theorem Content.nil (hc : c ≠ '\\') : Content (c :: back) [] [] := by
  have hends : EndsAlike (c :: back) [] := by
    refine ⟨?_, by simp [hc]⟩
    rw [isEscaped_cons, beq_eq_false_iff_ne.mpr hc]
    rfl
  exact ⟨hends, hends, fun _ _ => rfl, fun _ _ _ _ => rfl⟩

/-- The text `a` and its block `b` are in the same literal, and the literals before it are settled.
    `m` keeps the brackets of the block. -/
structure Agrees (found : List (List Char)) (m : Marks) (a b : Quotes) : Prop where
  source : a.literal = m.literal
  block : b.literal = m.literal
  sourceCode : a.comment = false
  blockCode : b.comment = false
  found : found ++ b.found = a.found.map settle

/-- In the middle of a line. -/
structure Alike (found : List (List Char)) (back : List Char) (m : Marks) (a b : Quotes) : Prop
    extends Agrees found m a b where
  content : m.literal.isSome = true → Content back a.back b.back

/-- Between two lines.  In a literal the text has gone on with blanks and newlines that are not yet
    written. -/
structure Apart (found : List (List Char)) (m : Marks) (a b : Quotes) : Prop
    extends Agrees found m a b where
  content : m.literal.isSome = true →
    ∃ u w, a.back.reverse = u ++ (w ++ ['\n']) ∧ allBlank w = true ∧ Settles u b.back.reverse

namespace Agrees

variable {m' : Marks}

theorem of_literal (h : Agrees found m a b) (hm : m'.literal = m.literal) : Agrees found m' a b :=
  { h with source := h.source.trans hm.symm, block := h.block.trans hm.symm }

theorem of_back (h : Agrees found m a b) (u v : List Char) :
    Agrees found m { a with back := u } { b with back := v } := { h with }

theorem alike (h : Agrees found m a b) (hm : m.literal = none) : Alike found back m a b :=
  ⟨h, by simp [hm]⟩

theorem apart (h : Agrees found m a b) (hm : m.literal = none) : Apart found m a b :=
  ⟨h, by simp [hm]⟩

theorem mark (h : Agrees found m a b) (hm : m.literal = none) (hquote : isQuote c = false)
    (hhash : c ≠ '#') : (m.step c).literal = none ∧ Agrees found (m.step c) a (b.step c) := by
  have hliteral : (m.step c).literal = none := by simp [Marks.step, hm, hquote]
  rw [Quotes.step_code (h.block.trans hm) h.blockCode hquote hhash]
  exact ⟨hliteral, h.of_literal (hliteral.trans hm.symm)⟩

end Agrees

/-- **One character** that does not start a comment. -/
theorem Alike.step (h : Alike found back m a b)
    (hends : m.literal.isSome = true → EndsAlike back m.back) (hc : c ≠ '\n')
    (hhash : m.literal = none → c ≠ '#') :
    Alike found (c :: back) (m.step c) (a.step c) (b.step c) := by
  cases hm : m.literal with
  | none =>
    have ha := h.source.trans hm
    have hb := h.block.trans hm
    cases hquote : isQuote c with
    | true =>
      have hback : c ≠ '\\' := by
        rintro rfl
        exact absurd hquote (by decide)
      rw [Quotes.step_open ha h.sourceCode hquote, Quotes.step_open hb h.blockCode hquote]
      refine ⟨⟨?_, ?_, h.sourceCode, h.blockCode, h.found⟩, fun _ => .nil hback⟩ <;>
        simp [Marks.step, hm, hquote]
    | false =>
      obtain ⟨hliteral, hagrees⟩ := h.mark hm hquote (hhash hm)
      rw [Quotes.step_code ha h.sourceCode hquote (hhash hm)]
      exact hagrees.alike hliteral
  | some q =>
    have hsome : m.literal.isSome = true := by rw [hm]; rfl
    have ha := h.source.trans hm
    have hb := h.block.trans hm
    have hcontent := h.content hsome
    -- whether a quote is escaped is decided alike in the line, the literal and the block
    have hsource : isEscaped a.back = isEscaped back := hcontent.source.1.symm
    have hblock : isEscaped b.back = isEscaped back := hcontent.block.1.symm
    have hmarks : isEscaped m.back = isEscaped back := (hends hsome).1.symm
    cases hclose : c == q && !isEscaped back with
    | true =>
      rw [Quotes.step_close ha (by rw [hsource, hclose]), Quotes.step_close hb (by rw [hblock, hclose])]
      have hliteral : (m.step c).literal = none := by
        rw [Marks.step, hm]
        simp only [hmarks, hclose, if_true]
      have hsettled : settle a.back.reverse = b.back.reverse := by
        have := hcontent.settlesOn [] rfl
        rwa [append_nil, settle, append_nil] at this
      refine Agrees.alike ⟨hliteral.symm, hliteral.symm, h.sourceCode, h.blockCode, ?_⟩ hliteral
      rw [← append_assoc, h.found, map_append, map_singleton, hsettled]
    | false =>
      rw [Quotes.step_inside ha (by rw [hsource, hclose]),
        Quotes.step_inside hb (by rw [hblock, hclose])]
      have hliteral : (m.step c).literal = some q := by
        rw [Marks.step, hm]
        simp only [hmarks, hclose, Bool.false_eq_true, if_false]
      exact ⟨(h.of_literal (hliteral.trans hm.symm)).of_back _ _, fun _ => hcontent.cons hc⟩

theorem allBlank_newline (hw : allBlank w = true) : allBlank (w ++ ['\n']) = true := by
  rw [allBlank, all_append, Bool.and_eq_true]
  exact ⟨hw, by decide⟩

theorem Alike.ends (h : Alike found back m a b) (hq : ∀ q ∈ m.literal, isQuote q = true)
    (hlast : ∃ d, back.head? = some d ∧ isBlank d = false) (hw : allBlank w = true) :
    Apart found m ((w ++ ['\n']).foldl Quotes.step a) b := by
  cases hm : m.literal with
  | none =>
    rw [Quotes.foldl_blank_code (h.source.trans hm) h.sourceCode (allBlank_newline hw)]
    exact h.apart hm
  | some q =>
    rw [Quotes.foldl_blank_inside (h.source.trans hm) (hq q hm) (allBlank_newline hw)]
    obtain ⟨d, hd, hd'⟩ := hlast
    refine ⟨h.of_back _ _, fun hsome => ?_⟩
    exact ⟨a.back.reverse, w, by simp, hw, (h.content hsome).settles d hd hd'⟩

theorem Apart.blank (h : Apart found m a b) (hq : ∀ q ∈ m.literal, isQuote q = true)
    (hw : allBlank w = true) : Apart found m ((w ++ ['\n']).foldl Quotes.step a) b := by
  cases hm : m.literal with
  | none =>
    rw [Quotes.foldl_blank_code (h.source.trans hm) h.sourceCode (allBlank_newline hw)]
    exact h
  | some q =>
    rw [Quotes.foldl_blank_inside (h.source.trans hm) (hq q hm) (allBlank_newline hw)]
    refine ⟨h.of_back _ _, fun hsome => ?_⟩
    obtain ⟨u, w', hback, hw', hsettles⟩ := h.content hsome
    refine ⟨u, w' ++ '\n' :: w, by simp [hback], ?_, hsettles⟩
    rw [allBlank, all_append, all_cons, Bool.and_eq_true, Bool.and_eq_true]
    exact ⟨hw', by decide, hw⟩

theorem endsAlike_margin (n : Nat) (u : List Char) :
    EndsAlike [] (List.replicate n ' ' ++ '\n' :: u) := by
  cases n with
  | zero => exact endsAlike_of_ne (by decide) (by simp)
  | succ n => exact endsAlike_of_ne (by decide) (by simp)

/-- The margin of the next line brings the two readings together again. -/
theorem Apart.margin {stack : List Frame} (h : Apart found m a b) (htracks : Tracks stack back m)
    (n : Nat) :
    Alike found [] (('\n' :: List.replicate n ' ').foldl Marks.step m)
      ((List.replicate n ' ').foldl Quotes.step a)
      (('\n' :: List.replicate n ' ').foldl Quotes.step b) := by
  have hspaces : allBlank (List.replicate n ' ') = true := allBlank_replicate (by decide) n
  have hmargin : allBlank ('\n' :: List.replicate n ' ') = true := by
    rw [allBlank, all_cons, Bool.and_eq_true]
    exact ⟨by decide, hspaces⟩
  have hliteral : (('\n' :: List.replicate n ' ').foldl Marks.step m).literal = m.literal :=
    (htracks.margin n).literal.trans htracks.literal.symm
  cases hm : m.literal with
  | none =>
    rw [Quotes.foldl_blank_code (h.source.trans hm) h.sourceCode hspaces,
      Quotes.foldl_blank_code (h.block.trans hm) h.blockCode hmargin]
    exact (h.of_literal hliteral).alike (hliteral.trans hm)
  | some q =>
    have hq : isQuote q = true := isQuote_of_literalOf (htracks.literal ▸ hm)
    obtain ⟨u, w, hback, hw, hsettles⟩ := h.content (by rw [hm]; rfl)
    have hback : a.back = '\n' :: (w.reverse ++ u.reverse) := by
      simpa using congrArg List.reverse hback
    rw [Quotes.foldl_blank_inside (h.source.trans hm) hq hspaces,
      Quotes.foldl_blank_inside (h.block.trans hm) hq hmargin]
    refine ⟨(h.of_literal hliteral).of_back _ _, fun _ => ⟨?_, ?_, ?_, fun _ hnil => by cases hnil⟩⟩
    · simpa [hback] using endsAlike_margin n _
    · simpa using endsAlike_margin n _
    · simpa [hback] using hsettles.margin hw n

/-- Only a hash sign outside literals starts a comment. -/
theorem Scan.step_eq_none_iff {o : Option Scan} (h : s.step back c ahead = .ok o) :
    o = none ↔ s.isInside c = false ∧ c = '#' := by
  unfold Scan.step at h
  simp only [bind, Except.bind, pure, Except.pure, throw, throwThe, MonadExceptOf.throw] at h
  cases hinside : s.isInside c with
  | true =>
    rw [hinside, if_pos rfl] at h
    cases h
    simp
  | false =>
    rw [hinside, if_neg Bool.false_ne_true] at h
    split at h
    · cases h
    split at h
    · next hhash =>
      cases h
      simpa using hhash
    · next hhash =>
      have ho : o ≠ none := by
        rintro rfl
        repeat' split at h
        all_goals cases h
      simp_all

/-- A step writes its character, and a mark behind it only outside of literals. -/
theorem Scan.Moves.added_eq (h : s.Moves back c s') (hadded : s'.written = added.reverse ++ s.written) :
    added = [c] ∨ added = [c, templateMark] ∧ s.isInside c = false ∧ isQuote c = false := by
  have hsingle : s'.written = c :: s.written → added = [c] := by
    intro hwritten
    rw [hadded] at hwritten
    have hreverse : added.reverse = [c] :=
      append_cancel_right (show added.reverse ++ s.written = [c] ++ s.written from hwritten)
    simpa using congrArg List.reverse hreverse
  cases h with
  | inside _ _ hwritten => exact .inl (hsingle hwritten)
  | opening _ _ _ hwritten => exact .inl (hsingle hwritten)
  | closing _ _ _ hwritten => exact .inl (hsingle hwritten)
  | quote _ _ _ hwritten => exact .inl (hsingle hwritten)
  | other hinside hquote _ _ hmarks hwritten =>
    rcases hmarks with rfl | rfl
    · exact .inl (hsingle hwritten)
    · refine .inr ⟨?_, hinside, hquote⟩
      rw [hadded] at hwritten
      have hreverse : added.reverse = [templateMark, c] := append_cancel_right
        (show added.reverse ++ s.written = [templateMark, c] ++ s.written from hwritten)
      simpa using congrArg List.reverse hreverse

/-- A step keeps the two readings alike. -/
theorem Alike.moves (h : Alike found back m a b) (htracks : Tracks s.stack back m)
    (hmoves : s.Moves back c s') (hc : c ≠ '\n') (hhash : s.isInside c = false → c ≠ '#') :
    ∃ added : List Char, s'.written = added.reverse ++ s.written ∧
      Tracks s'.stack (c :: back) (added.foldl Marks.step m) ∧
      Alike found (c :: back) (added.foldl Marks.step m) (a.step c)
        (added.foldl Quotes.step b) := by
  obtain ⟨added, hadded, htracks'⟩ := htracks.moves hmoves
  have hcode : m.literal = none → c ≠ '#' := by
    intro hm
    refine hhash (isInside_eq_false_iff.mpr fun q hq => ?_)
    rw [← htracks.literal, hm] at hq
    cases hq
  have hstep := h.step htracks.ends hc hcode
  refine ⟨added, hadded, htracks', ?_⟩
  rcases hmoves.added_eq hadded with rfl | ⟨rfl, hinside, hquote⟩
  · exact hstep
  · -- the mark is written outside literals
    have hm : m.literal = none := htracks.literal.trans (literalOf_eq_none hinside hquote)
    have hm' : (m.step c).literal = none := by simp [Marks.step, hm, hquote]
    obtain ⟨hliteral, hagrees⟩ := hstep.mark (c := templateMark) hm' (by decide) (by decide)
    exact hagrees.alike hliteral

/-- **One line.**  After the characters of a line that does not end in a blank, and the blanks
    behind it, the text and its block are as between two lines. -/
theorem Alike.scanFrom {line : List Char} {n : Nat} (h : Alike found back m a b) (htracks : Tracks s.stack back m)
    (hscan : scanFrom s back line = .ok (s', n)) (hline : '\n' ∉ line)
    (hlast : ∃ d, (line.reverse ++ back).head? = some d ∧ isBlank d = false)
    (hw : allBlank w = true) (hnewline : '\n' ∉ w) :
    ∃ (added back' : List Char), s'.written = added.reverse ++ s.written ∧
      Tracks s'.stack back' (added.foldl Marks.step m) ∧
      Apart found (added.foldl Marks.step m) ((line ++ (w ++ ['\n'])).foldl Quotes.step a)
        (added.foldl Quotes.step b) := by
  induction line generalizing s back m a b with
  | nil =>
    cases hscan
    refine ⟨[], back, rfl, htracks, h.ends (fun q hq => ?_) hlast hw⟩
    exact isQuote_of_literalOf (htracks.literal ▸ hq)
  | cons c ahead ih =>
    rw [mem_cons, not_or] at hline
    rw [Layout.scanFrom] at hscan
    obtain ⟨o, hstep, hscan⟩ := Failing.bind_eq_ok.mp hscan
    have hhash := Scan.step_eq_none_iff hstep
    cases o with
    | none =>
      -- the rest of the line is a comment
      cases hscan
      obtain ⟨hinside, rfl⟩ := hhash.mp rfl
      have hm : m.literal = none := htracks.literal.trans (literalOf_eq_none hinside (by decide))
      have ha : a.literal = none := h.source.trans hm
      have hcomment : (('#' :: ahead) ++ (w ++ ['\n'])).foldl Quotes.step a = a := by
        rw [cons_append, ← append_assoc]
        exact Quotes.foldl_hash ha h.sourceCode (by simp [hline.2, hnewline])
      refine ⟨[], back, rfl, htracks, ?_⟩
      rw [hcomment]
      exact h.apart hm
    | some next =>
      have hmoves := Scan.moves_of_step hstep
      obtain ⟨first, hfirst, hnext, halike⟩ := h.moves htracks hmoves (Ne.symm hline.1)
        fun hinside hc => absurd (hhash.mpr ⟨hinside, hc⟩) (by simp)
      obtain ⟨more, back', hmore, hlast, hapart⟩ :=
        ih halike hnext hscan hline.2 (by simpa using hlast)
      refine ⟨first ++ more, back', ?_, ?_, ?_⟩
      · rw [hmore, hfirst, reverse_append, append_assoc]
      · rw [foldl_append]
        exact hlast
      · simpa only [cons_append, foldl_cons, foldl_append] using hapart

/-! ### All lines -/

/-- The state between two lines, `a` being what is met in the lines so far. -/
structure Progress.Reads (p : Progress) (a : Quotes) : Prop where
  tracks : ∃ back, Tracks p.stack back (marks p.current.text)
  apart : Apart (p.finished.reverse.flatMap fun b => literals b.text) (marks p.current.text) a
    (quotes p.current.text)

theorem quotes_newlines (n : Nat) : quotes (List.replicate n '\n') = {} :=
  Quotes.foldl_blank_code rfl rfl (allBlank_replicate (by decide) n)

theorem Apart.ending (h : Apart found (marks (text ++ added)) a (quotes (text ++ added)))
    (hm : (marks (text ++ added)).literal = none) (hquote : isQuote c = false) (hhash : c ≠ '#') :
    Apart found (marks (text ++ (added ++ [c]))) a (quotes (text ++ (added ++ [c]))) := by
  rw [← append_assoc, marks_append, quotes_append]
  obtain ⟨hliteral, hagrees⟩ := h.mark hm hquote hhash
  exact hagrees.apart hliteral

/-- The text that is left of a line when the blanks at its end are dropped. -/
theorem stripRight_append (raw : List Char) :
    ∃ w, raw = stripRight raw ++ w ∧ allBlank w = true := by
  refine ⟨(raw.reverse.takeWhile isBlank).reverse, ?_, ?_⟩
  · rw [stripRight, ← reverse_append, takeWhile_append_dropWhile, reverse_reverse]
  · rw [allBlank, all_reverse]
    exact all_takeWhile

theorem getLast?_stripRight (h : stripRight raw ≠ []) :
    ∃ d, (stripRight raw).getLast? = some d ∧ isBlank d = false := by
  rw [stripRight, ne_eq, reverse_eq_nil_iff] at h
  refine ⟨(raw.reverse.dropWhile isBlank).head h, ?_, ?_⟩
  · rw [stripRight, getLast?_reverse, head?_eq_some_head]
  · simpa using head_dropWhile_not isBlank h

/-- The margin of a line is no part of its end. -/
theorem getLast?_of_margin {line : List Char} {width : Nat} {d : Char}
    (h : (List.replicate width ' ' ++ line).getLast? = some d) (hd : isBlank d = false) :
    line.getLast? = some d := by
  rw [getLast?_append] at h
  cases hline : line.getLast? with
  | some e => rwa [hline] at h
  | none =>
    rw [hline] at h
    have hspace := eq_of_mem_replicate (mem_of_getLast? h)
    rw [hspace] at hd
    cases hd

/-- The block that is being written grows by the text of a line. -/
theorem Progress.Grows.reads (h : p.Grows p' added)
    (htracks : ∃ back, Tracks p'.stack back (marks (p.current.text ++ added)))
    (hapart : Apart (p.finished.reverse.flatMap fun b => literals b.text)
      (marks (p.current.text ++ added)) a (quotes (p.current.text ++ added))) : p'.Reads a where
  tracks := h.current ▸ htracks
  apart := by
    rw [h.current, h.finished]
    exact hapart

/-- A new block holds no literal, and those of the finished one count as finished. -/
theorem Progress.Cuts.reads (h : p.Cuts p' added) (hstack : p'.stack = [.indent])
    (hliteral : (marks (p.current.text ++ added)).literal = none)
    (hapart : Apart (p.finished.reverse.flatMap fun b => literals b.text)
      (marks (p.current.text ++ added)) a (quotes (p.current.text ++ added))) : p'.Reads a := by
  obtain ⟨n, hcurrent⟩ := h.current
  have htracks := tracks_newlines n
  refine ⟨⟨[], ?_⟩, ?_⟩
  · rw [hstack, hcurrent]
    exact htracks
  · rw [hcurrent, h.finished, quotes_newlines]
    have hnone : (marks (List.replicate n '\n')).literal = none := htracks.literal
    refine Agrees.apart ⟨?_, hnone.symm, hapart.sourceCode, rfl, ?_⟩ hnone
    · rw [hapart.source, hliteral, hnone]
    · rw [← hapart.found]
      simp [literals]

/-- **A line that is not blank.** -/
theorem Progress.Reads.fullLine (h : p.Reads a) (hraw : '\n' ∉ raw)
    (hlast : ∃ d, raw.getLast? = some d ∧ isBlank d = false) (hw : allBlank w = true)
    (hnewline : '\n' ∉ w) (hline : p.fullLine false number raw = .ok p') :
    p'.Reads ((raw ++ (w ++ ['\n'])).foldl Quotes.step a) := by
  obtain ⟨width, isComment, stack, line, scan, stop, rfl, hindent, hscan, hadds⟩ :=
    Progress.adds_of_fullLine hline
  obtain ⟨back, htracks⟩ := h.tracks
  have hstart := htracks.of_checkIndent hindent
  rw [mem_append, not_or] at hraw
  obtain ⟨d, hd, hblank⟩ := hlast
  have hlast : (line.reverse ++ []).head? = some d := by
    rw [append_nil, head?_reverse]
    exact getLast?_of_margin hd hblank
  obtain ⟨written, back', hwritten, hend, hapart⟩ :=
    (h.apart.margin hstart width).scanFrom (hstart.margin width) hscan hraw.2 ⟨d, hlast, hblank⟩ hw
      hnewline
  obtain rfl : scan.written.reverse = written := by rw [hwritten]; simp
  rw [← foldl_append, ← marks_append] at hend hapart
  rw [← foldl_append, ← foldl_append, ← quotes_append] at hapart
  rw [append_assoc]
  -- what is added behind the line stands outside literals
  cases hadds with
  | @opens rest hparen hstack hadded =>
    rw [hparen] at hstack hend
    refine hadded.reads ⟨back', ?_⟩ (hapart.ending hend.literal (by decide) (by decide))
    rw [hstack]
    exact (hend.ending rfl (by decide) (by decide)).block
  | statement hhead hlength hstack hadded =>
    have hliteral : literalOf scan.stack = none := by rw [literalOf, hhead]; rfl
    refine hadded.reads ⟨back', ?_⟩
      (hapart.ending (hend.literal.trans hliteral) (by decide) (by decide))
    rw [hstack]
    exact hend.ending hliteral (by decide) (by decide)
  | outermost hone hstack hadded =>
    rw [hone] at hstack hend
    exact hadded.reads hstack (hend.ending rfl (by decide) (by decide)).literal
      (hapart.ending hend.literal (by decide) (by decide))
  | part hhead hstack hadded =>
    refine hadded.reads ⟨back', ?_⟩ hapart
    rw [hstack]
    exact hend

/-- **One line.** -/
theorem Progress.Reads.line (h : p.Reads a) (hraw : '\n' ∉ raw)
    (hline : p.line false number raw = .ok p') :
    p'.Reads ((raw ++ ['\n']).foldl Quotes.step a) := by
  obtain ⟨back, htracks⟩ := h.tracks
  obtain ⟨w, hsplit, hw⟩ := stripRight_append raw
  rcases Progress.line_cases hline with ⟨hempty, rfl⟩ | ⟨hstrip, hfull⟩
  · rw [hempty, nil_append] at hsplit
    refine ⟨⟨back, htracks⟩, h.apart.blank (fun q hq => ?_) (hsplit ▸ hw)⟩
    exact isQuote_of_literalOf (htracks.literal ▸ hq)
  · rw [hsplit, mem_append, not_or] at hraw
    rw [hsplit, append_assoc]
    exact h.fullLine hraw.1 (getLast?_stripRight hstrip) hw hraw.2 hfull

/-- **All lines.** -/
theorem Progress.Reads.lines (h : p.Reads a)
    (hraws : ∀ raw ∈ raws, '\n' ∉ raw) (hlines : p.lines false number raws = .ok (p', last)) :
    p'.Reads ((raws.flatMap fun raw => raw ++ ['\n']).foldl Quotes.step a) := by
  induction raws generalizing p a number with
  | nil =>
    cases hlines
    exact h
  | cons raw raws ih =>
    rw [forall_mem_cons] at hraws
    rw [Progress.lines] at hlines
    obtain ⟨next, hline, hlines⟩ := Failing.bind_eq_ok.mp hlines
    rw [flatMap_cons, foldl_append]
    exact ih (h.line hraws.1 hline) hraws.2 hlines

/-! ### Whole texts -/

/-- The lines of a text hold all of it, and at most a newline more. -/
theorem flatMap_lines (text : List Char) :
    ((lines text).flatMap fun raw => raw ++ ['\n']) = text ∨
      ((lines text).flatMap fun raw => raw ++ ['\n']) = text ++ ['\n'] := by
  induction text with
  | nil => exact .inl rfl
  | cons c text ih =>
    rw [Text.lines]
    split
    · next hc =>
      rw [beq_iff_eq.mp hc]
      simpa using ih
    · next hc =>
      cases hlines : Text.lines text with
      | nil =>
        rw [hlines] at ih
        have htext : text = [] := by simpa using ih
        simp [htext]
      | cons l ls =>
        rw [hlines] at ih
        simpa using ih

theorem not_mem_of_mem_lines (text : List Char) : ∀ raw ∈ lines text, '\n' ∉ raw := by
  induction text with
  | nil => exact nofun
  | cons c text ih =>
    rw [Text.lines]
    split
    · simpa using ih
    · next hc =>
      have hc : '\n' ≠ c := fun h => hc (by rw [h, beq_self_eq_true])
      cases hlines : Text.lines text with
      | nil => simpa using hc
      | cons l ls =>
        rw [hlines] at ih
        rw [forall_mem_cons] at ih ⊢
        exact ⟨by simp [hc, ih.1], ih.2⟩

theorem found_newline (text : List Char) : literals (text ++ ['\n']) = literals text := by
  rw [literals, quotes_append]
  show ((quotes text).step '\n').found = _
  cases hliteral : (quotes text).literal with
  | none =>
    simp only [Quotes.step, hliteral]
    split
    · rfl
    · rfl
  | some q =>
    have hq := Quotes.isQuote_of_quotes text q hliteral
    have hne : '\n' ≠ q := by
      rintro rfl
      cases hq
    rw [Quotes.step_of_ne hliteral hne]
    rfl

theorem layout_cases {l : Arrangement} (h : layout text hide = .ok l) :
    ∃ (p : Progress) (last : Nat), Progress.lines false {} 1 (Text.lines text) = .ok (p, last) ∧
      l.blocks = p.blocks := by
  obtain ⟨l', h', hblocks⟩ := exists_layout h false
  unfold layout at h'
  obtain ⟨⟨p, last⟩, hlines, h'⟩ := Failing.bind_eq_ok.mp h'
  dsimp only at h'
  split at h'
  · cases h'
  cases h'
  exact ⟨p, last, hlines, hblocks.symm⟩

theorem Progress.reads_start : Progress.Reads {} {} where
  tracks := ⟨[], tracks_newlines 0⟩
  apart := ⟨⟨rfl, rfl, rfl, rfl, rfl⟩, nofun⟩

/-- **Literals in a layout.**  The blocks hold the literals of the text, in their order; of the
    contents of each, the blanks before a newline are dropped, blank lines included, and all else is
    kept.  So the contents are unchanged exactly if no literal has a blank before a newline. -/
theorem literals_of_layout (text : List Char) (hide : Bool) (l : Arrangement)
    (h : layout text hide = .ok l) :
    (l.blocks.flatMap fun b => literals b.text) = (literals text).map settle ∧
      ((l.blocks.flatMap fun b => literals b.text) = literals text ↔
        ∀ contents ∈ literals text, ∀ c, isBlank c = true → ¬ [c, '\n'] <:+: contents) := by
  obtain ⟨p, last, hlines, hblocks⟩ := layout_cases h
  have hreads := Progress.reads_start.lines (not_mem_of_mem_lines text) hlines
  have hfound : (quotes ((lines text).flatMap fun raw => raw ++ ['\n'])).found = literals text := by
    rcases flatMap_lines text with hall | hall
    · rw [hall, literals]
    · rw [hall, ← found_newline, literals]
  have hsettled : (l.blocks.flatMap fun b => literals b.text) = (literals text).map settle := by
    rw [hblocks, Progress.blocks, List.reverse_cons, List.flatMap_append, List.flatMap_singleton,
      ← hfound]
    exact hreads.apart.found
  refine ⟨hsettled, ?_⟩
  have hself : (literals text).map settle = literals text ↔ ∀ u ∈ literals text, settle u = u := by
    simpa using List.map_inj_left (f := settle) (g := id) (l := literals text)
  rw [hsettled, hself]
  simp only [settle_eq_self_iff]

/-- A literal of three lines, of which the first ends in blanks and the second is blank. -/
def threeLines : List Char := "x = 'a  \n \n  b' # 'c'\n".toList

theorem literals_of_layout_threeLines :
    ∃ l, layout threeLines true = .ok l ∧
      (l.blocks.flatMap fun b => literals b.text) = ["a\n  b".toList] := by
  obtain ⟨l, hl⟩ : ∃ l, layout threeLines true = .ok l := ⟨_, rfl⟩
  refine ⟨l, hl, (literals_of_layout threeLines true l hl).1.trans ?_⟩
  decide +kernel

/-- Its contents are not kept. -/
theorem literals_threeLines_changed :
    ∃ l, layout threeLines = .ok l ∧ literals threeLines = ["a  \n \n  b".toList] ∧
      (l.blocks.flatMap fun b => literals b.text) ≠ literals threeLines := by
  refine ⟨_, rfl, ?_, ?_⟩
  · decide +kernel
  · decide +kernel

end Cppward.Layout
