import Cppward.Proofs.Layout.Brackets

namespace Cppward.Layout

open Text List

/-!
# The stack of a line follows its brackets

While a line is read, the stack of open frames records the brackets and the literal that the text
written so far leaves open.

* `Nested` — the stacks that can occur: literals are innermost, indented blocks stand in
  parentheses.
* `Scan.Moves` — what one character can do to a line (`moves_of_step`).
* `Tracks` — a stack agrees with what is met in a text; one character keeps this (`Tracks.moves`),
  and so does a whole line (`Tracks.scanFrom`).
-/

variable {s s' : Scan} {back back' ahead line text : List Char} {c q : Char}
  {stack stack' : List Frame} {frame : Frame} {m : Marks}

/-! ### Stacks -/

def literalOf (stack : List Frame) : Option Char := stack.head?.bind Frame.quote?

/-- The stacks that occur.  Nothing is opened inside a literal, and an indented block is opened in
    parentheses only. -/
inductive Nested : List Frame → Prop
  | outermost : Nested [.indent]
  | block {stack : List Frame} (h : Nested (.paren :: stack)) : Nested (.indent :: .paren :: stack)
  | bracket {frame : Frame} {stack : List Frame} (hframe : frame.opener?.isSome = true)
      (hliteral : literalOf stack = none) (h : Nested stack) : Nested (frame :: stack)
  | literal {frame : Frame} {stack : List Frame} (hframe : frame.quote?.isSome = true)
      (hliteral : literalOf stack = none) (h : Nested stack) : Nested (frame :: stack)

/-- Without its innermost bracket or literal, a stack still occurs, and no literal is open. -/
theorem Nested.tail (h : Nested (frame :: stack)) (hframe : frame ≠ .indent) :
    Nested stack ∧ literalOf stack = none := by
  cases h with
  | outermost => exact absurd rfl hframe
  | block => exact absurd rfl hframe
  | bracket _ hliteral h => exact ⟨h, hliteral⟩
  | literal _ hliteral h => exact ⟨h, hliteral⟩

/-- Inside literals everything but the quote is kept. -/
theorem isInside_eq_true_iff :
    s.isInside c = true ↔ ∃ q, literalOf s.stack = some q ∧ c ≠ q := by
  rw [Scan.isInside, literalOf]
  cases s.stack.head? with
  | none => simp
  | some frame => cases frame <;> simp [Frame.quote?]

theorem isInside_eq_false_iff :
    s.isInside c = false ↔ ∀ q, literalOf s.stack = some q → c = q := by
  rw [← Bool.not_eq_true, isInside_eq_true_iff]
  simp

/-! ### One character -/

/-- The effects that a character can have on a line. -/
inductive Scan.Moves (s : Scan) (back : List Char) (c : Char) (s' : Scan) : Prop
  | inside (hinside : s.isInside c = true) (hstack : s'.stack = s.stack)
      (hwritten : s'.written = c :: s.written)
  | opening {frame : Frame} (hinside : s.isInside c = false)
      (hframe : Frame.ofOpener? c = some frame) (hstack : s'.stack = frame :: s.stack)
      (hwritten : s'.written = c :: s.written)
  | closing (hinside : s.isInside c = false) (hcloser : isCloser c = true)
      (hstack : closeBracket s.stack c = .ok s'.stack) (hwritten : s'.written = c :: s.written)
  | quote {frame : Frame} (hinside : s.isInside c = false) (hframe : frame.quote? = some c)
      (hstack : s'.stack = s.quote frame back) (hwritten : s'.written = c :: s.written)
  | other {marks : List Char} (hinside : s.isInside c = false) (hquote : isQuote c = false)
      (hbracket : isBracket c = false) (hstack : s'.stack = s.stack)
      (hmarks : marks = [] ∨ marks = [templateMark])
      (hwritten : s'.written = marks ++ c :: s.written)

/-- A character that neither opens nor closes a frame is no bracket. -/
theorem isBracket_eq_false (hopener : Frame.ofOpener? c = none) (hcloser : isCloser c = false) :
    isBracket c = false := by
  by_contra h
  rw [Bool.not_eq_false] at h
  simp only [isBracket, bracketPairs, any_cons, any_nil, Bool.or_false, Bool.or_eq_true,
    beq_iff_eq] at h
  rcases h with (rfl | rfl) | (rfl | rfl) | (rfl | rfl) <;> revert hopener hcloser <;> decide

/-- Every step of the scan is one of the moves. -/
theorem Scan.moves_of_step (h : s.step back c ahead = .ok (some s')) : s.Moves back c s' := by
  unfold Scan.step at h
  simp only [bind, Except.bind, pure, Except.pure, throw, throwThe, MonadExceptOf.throw] at h
  cases hinside : s.isInside c with
  | true =>
    rw [hinside, if_pos rfl] at h
    cases h
    exact .inside hinside rfl rfl
  | false =>
    rw [hinside, if_neg Bool.false_ne_true] at h
    -- a bell is refused, and a hash sign ends the line: in both cases no state is left
    split at h
    · cases h
    split at h
    · cases h
    split at h
    · next frame hframe =>
      cases h
      exact .opening hinside hframe rfl rfl
    next hopener =>
    have hopener : Frame.ofOpener? c = none := Option.eq_none_iff_forall_ne_some.mpr hopener
    split at h
    · next hcloser =>
      split at h
      · cases h
      · next hclose =>
        cases h
        exact .closing hinside hcloser hclose rfl
    next hcloser =>
    have hbracket := isBracket_eq_false hopener (Bool.not_eq_true _ ▸ hcloser)
    split at h
    · next hquote =>
      cases h
      have hframe : Frame.single.quote? = some c := by
        rw [beq_iff_eq.mp hquote]
        rfl
      exact .quote hinside hframe rfl rfl
    next hsingle =>
    split at h
    · next hquote =>
      cases h
      have hframe : Frame.double.quote? = some c := by
        rw [beq_iff_eq.mp hquote]
        rfl
      exact .quote hinside hframe rfl rfl
    next hdouble =>
    have hquote : isQuote c = false := by
      rw [isQuote, Bool.or_eq_false_iff]
      exact ⟨Bool.not_eq_true _ ▸ hsingle, Bool.not_eq_true _ ▸ hdouble⟩
    -- angles are only counted; one that closes a template is marked
    split at h
    · cases h
      exact .other hinside hquote hbracket rfl (.inl rfl) rfl
    split at h
    · next hangle =>
      rw [Bool.and_eq_true, beq_iff_eq] at hangle
      split at h
      · cases h
        exact .other hinside hquote hbracket rfl (.inr rfl) (by rw [hangle.1]; rfl)
      · cases h
        exact .other hinside hquote hbracket rfl (.inl rfl) rfl
    · cases h
      exact .other hinside hquote hbracket rfl (.inl rfl) rfl

/-! ### What a stack records -/

theorem isEscaped_cons (c : Char) (back : List Char) :
    isEscaped (c :: back) = (c == '\\' && back.head? != some '\\') := by
  by_cases hc : c = '\\'
  · cases back with
    | nil => simp [hc, isEscaped]
    | cons d back => by_cases hd : d = '\\' <;> simp [hc, hd, isEscaped]
  · simp [hc, isEscaped]

/-- Texts after which a quote is escaped or not alike, and will be after any further character. -/
def EndsAlike (back back' : List Char) : Prop :=
  isEscaped back = isEscaped back' ∧ (back.head? = some '\\' ↔ back'.head? = some '\\')

theorem EndsAlike.cons (h : EndsAlike back back') : EndsAlike (c :: back) (c :: back') := by
  refine ⟨?_, Iff.rfl⟩
  have hhead : (back.head? != some '\\') = (back'.head? != some '\\') := by
    rw [Bool.eq_iff_iff, bne_iff_ne, bne_iff_ne]
    exact not_congr h.2
  rw [isEscaped_cons, isEscaped_cons, hhead]

/-- A text that ends in no backslash is like the empty one. -/
theorem endsAlike_of_ne (hc : c ≠ '\\') (hback : back.head? ≠ some '\\') :
    EndsAlike back (c :: back') := by
  constructor
  · rw [isEscaped_cons]
    cases back with
    | nil => simp [isEscaped, hc]
    | cons d back =>
      have hd : d ≠ '\\' := fun hd => hback (by rw [hd]; rfl)
      rw [isEscaped_cons, beq_eq_false_iff_ne.mpr hc, beq_eq_false_iff_ne.mpr hd]
      rfl
  · simp [hc, hback]

/-- The stack records what the text leaves open.  Inside a literal the text ends like the line. -/
structure Tracks (stack : List Frame) (back : List Char) (m : Marks) : Prop where
  nested : Nested stack
  literal : m.literal = literalOf stack
  leaves : Leaves (openBrackets stack) m.brackets
  ends : m.literal.isSome = true → EndsAlike back m.back

theorem isQuote_of_quote? (h : frame.quote? = some c) : isQuote c = true := by
  cases frame <;> cases h <;> decide

theorem quote?_inj {frame' : Frame} (h : frame.quote? = some c) (h' : frame'.quote? = some c) :
    frame = frame' := by
  rw [← h'] at h
  cases frame' <;> cases h' <;> cases frame <;> first | rfl | (revert h; decide)

theorem isQuote_of_literalOf (h : literalOf stack = some c) : isQuote c = true := by
  obtain ⟨frame, -, hframe⟩ := Option.bind_eq_some_iff.mp h
  exact isQuote_of_quote? hframe

theorem isBracket_of_isQuote (h : isQuote c = true) : isBracket c = false := by
  rw [isQuote, Bool.or_eq_true, beq_iff_eq, beq_iff_eq] at h
  rcases h with rfl | rfl <;> decide

theorem openBrackets_of_quote (h : frame.quote? = some c) :
    openBrackets (frame :: stack) = openBrackets stack := by
  cases frame <;> cases h <;> rfl

theorem openBrackets_of_opener (h : frame.opener?.isSome = true) :
    openBrackets (frame :: stack) = frame :: openBrackets stack := by
  cases frame <;> first | rfl | cases h

/-- Only a quote can be looked at inside a literal. -/
theorem literalOf_eq_none (hinside : s.isInside c = false) (hquote : isQuote c = false) :
    literalOf s.stack = none := by
  refine Option.eq_none_iff_forall_ne_some.mpr fun q hq => ?_
  have hq' := isQuote_of_literalOf hq
  rw [← isInside_eq_false_iff.mp hinside q hq, hquote] at hq'
  cases hq'

theorem isQuote_of_ofOpener? (h : Frame.ofOpener? c = some frame) :
    frame.opener? = some c ∧ isQuote c = false ∧ isBracket c = true := by
  unfold Frame.ofOpener? at h
  split at h <;> cases h <;> decide

theorem isQuote_of_isCloser (h : isCloser c = true) : isQuote c = false ∧ isBracket c = true := by
  simp only [isCloser, Bool.or_eq_true, beq_iff_eq] at h
  rcases h with (rfl | rfl) | rfl <;> decide

/-- Only a bracket of the kind of the innermost frame closes it. -/
theorem closeBracket_eq_ok (h : closeBracket stack c = .ok stack') :
    ∃ frame, stack = frame :: stack' ∧ frame.closer? = some c := by
  cases stack with
  | nil => cases h
  | cons frame rest =>
    cases hf : frame.closer? with
    | none => simp [closeBracket, hf] at h
    | some expected =>
      by_cases hc : c = expected
      · simp [closeBracket, hf, hc] at h
        exact ⟨frame, by rw [h], by rw [hc, hf]⟩
      · simp [closeBracket, hf, hc] at h

namespace Tracks

theorem neutral (h : Tracks stack back m) (hquote : isQuote c = false)
    (hbracket : isBracket c = false)
    (hends : m.literal.isSome = true → EndsAlike back' (c :: m.back)) :
    Tracks stack back' (m.step c) := by
  have hstep : m.step c = { m with back := c :: m.back } := by
    refine Marks.step_of_neutral (fun q hq => ?_) hquote hbracket
    rw [h.literal] at hq
    exact isQuote_of_literalOf hq
  rw [hstep]
  exact ⟨h.nested, h.literal, h.leaves, hends⟩

theorem inside (h : Tracks stack back m) (hinside : literalOf stack = some q)
    (hne : c ≠ q) : Tracks stack (c :: back) (m.step c) := by
  have hm : m.literal = some q := h.literal.trans hinside
  have hstep : m.step c = { m with back := c :: m.back } := by
    simp [Marks.step, hm, hne]
  rw [hstep]
  exact ⟨h.nested, h.literal, h.leaves, fun _ => (h.ends (by rw [hm]; rfl)).cons⟩

theorem opening (h : Tracks stack back m) (hliteral : literalOf stack = none)
    (hframe : Frame.ofOpener? c = some frame) :
    Tracks (frame :: stack) (c :: back) (m.step c) := by
  have hm : m.literal = none := h.literal.trans hliteral
  obtain ⟨hopener, hquote, hbracket⟩ := isQuote_of_ofOpener? hframe
  have hsome : frame.opener?.isSome = true := by rw [hopener]; rfl
  have hnone : frame.quote? = none := by
    cases frame <;> first | rfl | simp [Frame.opener?] at hopener
  have hstep : m.step c = ⟨none, c :: m.back, m.brackets ++ [c]⟩ := by
    simp [Marks.step, hm, hquote, hbracket]
  rw [hstep]
  refine ⟨.bracket hsome hliteral h.nested, ?_, ?_, fun hfalse => absurd hfalse Bool.false_ne_true⟩
  · simp [literalOf, hnone]
  · rw [openBrackets_of_opener hsome]
    exact h.leaves.push hopener

theorem closing (h : Tracks stack back m) (hliteral : literalOf stack = none)
    (hcloser : isCloser c = true) (hstack : closeBracket stack c = .ok stack') :
    Tracks stack' (c :: back) (m.step c) := by
  have hm : m.literal = none := h.literal.trans hliteral
  obtain ⟨hquote, hbracket⟩ := isQuote_of_isCloser hcloser
  have hstep : m.step c = ⟨none, c :: m.back, m.brackets ++ [c]⟩ := by
    simp [Marks.step, hm, hquote, hbracket]
  rw [hstep]
  obtain ⟨frame, rfl, hframe⟩ := closeBracket_eq_ok hstack
  have hopener : frame.opener?.isSome = true := by
    cases frame <;> simp_all [literalOf, Frame.quote?, Frame.opener?, Frame.closer?]
  obtain ⟨hnested, hliteral'⟩ := h.nested.tail (by rintro rfl; cases hopener)
  refine ⟨hnested, hliteral'.symm, ?_, fun hfalse => absurd hfalse Bool.false_ne_true⟩
  have hleaves := h.leaves
  rw [openBrackets_of_opener hopener] at hleaves
  exact hleaves.pop hframe

theorem openLiteral (h : Tracks stack back m) (hliteral : literalOf stack = none)
    (hframe : frame.quote? = some c) : Tracks (frame :: stack) (c :: back) (m.step c) := by
  have hquote := isQuote_of_quote? hframe
  have hstep : m.step c = ⟨some c, c :: m.back, m.brackets⟩ := by
    simp [Marks.step, h.literal.trans hliteral, hquote, isBracket_of_isQuote hquote]
  have hc : c ≠ '\\' := by
    rintro rfl
    exact absurd hquote (by decide)
  rw [hstep]
  refine ⟨.literal (by rw [hframe]; rfl) hliteral h.nested, ?_, ?_, fun _ => ?_⟩
  · simp [literalOf, hframe]
  · rw [openBrackets_of_quote hframe]
    exact h.leaves
  · exact endsAlike_of_ne hc (by simp [hc])

theorem escapedQuote (h : Tracks stack back m) (hliteral : literalOf stack = some c)
    (hescaped : isEscaped back = true) : Tracks stack (c :: back) (m.step c) := by
  have hm : m.literal = some c := h.literal.trans hliteral
  have hends := h.ends (by rw [hm]; rfl)
  have hstep : m.step c = { m with back := c :: m.back } := by
    simp [Marks.step, hm, ← hends.1, hescaped]
  rw [hstep]
  exact ⟨h.nested, h.literal, h.leaves, fun _ => hends.cons⟩

theorem closeLiteral (h : Tracks (frame :: stack) back m) (hframe : frame.quote? = some c)
    (hescaped : isEscaped back = false) : Tracks stack (c :: back) (m.step c) := by
  have hm : m.literal = some c := h.literal.trans hframe
  have hends := h.ends (by rw [hm]; rfl)
  have hstep : m.step c = { m with literal := none, back := c :: m.back } := by
    simp [Marks.step, hm, ← hends.1, hescaped]
  obtain ⟨hnested, hliteral⟩ := h.nested.tail (by rintro rfl; cases hframe)
  rw [hstep]
  refine ⟨hnested, hliteral.symm, ?_, fun hfalse => absurd hfalse Bool.false_ne_true⟩
  exact openBrackets_of_quote hframe ▸ h.leaves

theorem quote (h : Tracks s.stack back m) (hinside : s.isInside c = false)
    (hframe : frame.quote? = some c) :
    Tracks (s.quote frame back) (c :: back) (m.step c) := by
  rw [isInside_eq_false_iff] at hinside
  rw [Scan.quote]
  split
  · next hhead =>
    obtain ⟨rest, hstack⟩ := head?_eq_some_iff.mp (beq_iff_eq.mp hhead)
    rw [hstack] at h ⊢
    cases hescaped : isEscaped back with
    | true => exact h.escapedQuote hframe hescaped
    | false => exact h.closeLiteral hframe hescaped
  · next hhead =>
    -- a literal of the other kind would keep the quote, so none is open
    refine h.openLiteral (Option.eq_none_iff_forall_ne_some.mpr fun q hq => hhead ?_) hframe
    obtain rfl := hinside q hq
    obtain ⟨top, htop, hquote⟩ := Option.bind_eq_some_iff.mp hq
    rw [htop, quote?_inj hquote hframe, beq_self_eq_true]

/-- **One character.**  The stack still records what the text leaves open. -/
theorem moves (h : Tracks s.stack back m) (hmoves : s.Moves back c s') :
    ∃ added : List Char, s'.written = added.reverse ++ s.written ∧
      Tracks s'.stack (c :: back) (added.foldl Marks.step m) := by
  cases hmoves with
  | inside hinside hstack hwritten =>
    obtain ⟨q, hq, hne⟩ := isInside_eq_true_iff.mp hinside
    exact ⟨[c], hwritten, hstack ▸ h.inside hq hne⟩
  | quote hinside hframe hstack hwritten =>
    exact ⟨[c], hwritten, hstack ▸ h.quote hinside hframe⟩
  | @opening frame hinside hframe hstack hwritten =>
    have hliteral := literalOf_eq_none hinside (isQuote_of_ofOpener? hframe).2.1
    exact ⟨[c], hwritten, hstack ▸ h.opening hliteral hframe⟩
  | closing hinside hcloser hstack hwritten =>
    have hliteral := literalOf_eq_none hinside (isQuote_of_isCloser hcloser).1
    exact ⟨[c], hwritten, h.closing hliteral hcloser hstack⟩
  | @other marks hinside hquote hbracket hstack hmarks hwritten =>
    have hliteral := literalOf_eq_none hinside hquote
    have hm : m.literal = none := h.literal.trans hliteral
    have hopen : ∀ {m' : Marks}, m'.literal = none → ∀ {back₁ back₂ : List Char},
        m'.literal.isSome = true → EndsAlike back₁ back₂ := by
      intro m' hm' _ _ hsome
      rw [hm'] at hsome
      cases hsome
    have hstep : Tracks s.stack (c :: back) (m.step c) := h.neutral hquote hbracket (hopen hm)
    rw [hstack]
    rcases hmarks with rfl | rfl
    · exact ⟨[c], hwritten, hstep⟩
    · refine ⟨[c, templateMark], hwritten, ?_⟩
      exact hstep.neutral (by decide) (by decide) (hopen (hstep.literal.trans hliteral))

end Tracks

/-! ### One line -/

/-- A comment ends the line, and any other character moves the state. -/
theorem scanFrom_cases {n : Nat} (h : scanFrom s back (c :: ahead) = .ok (s', n)) :
    s' = s ∨ ∃ next, s.Moves back c next ∧ scanFrom next (c :: back) ahead = .ok (s', n) := by
  rw [scanFrom] at h
  obtain ⟨o, hstep, h⟩ := Failing.bind_eq_ok.mp h
  cases o with
  | none =>
    cases h
    exact .inl rfl
  | some next => exact .inr ⟨next, Scan.moves_of_step hstep, h⟩

/-- **One line.**  The stack still records what the text leaves open, whatever the line adds. -/
theorem Tracks.scanFrom {n : Nat} (h : Tracks s.stack back m)
    (hscan : scanFrom s back line = .ok (s', n)) :
    ∃ (added : List Char) (back' : List Char), s'.written = added.reverse ++ s.written ∧
      Tracks s'.stack back' (added.foldl Marks.step m) := by
  induction line generalizing s back m with
  | nil =>
    cases hscan
    exact ⟨[], back, rfl, h⟩
  | cons c ahead ih =>
    rcases scanFrom_cases hscan with rfl | ⟨next, hmoves, hscan⟩
    · exact ⟨[], back, rfl, h⟩
    · obtain ⟨first, hfirst, hnext⟩ := h.moves hmoves
      obtain ⟨more, back', hmore, hlast⟩ := ih hnext hscan
      refine ⟨first ++ more, back', ?_, ?_⟩
      · rw [hmore, hfirst, reverse_append, append_assoc]
      · rw [foldl_append]
        exact hlast

/-- A character is written, possibly with a mark behind it. -/
theorem Scan.Moves.written_eq (h : s.Moves back c s') :
    ∃ marks, (marks = [] ∨ marks = [templateMark]) ∧ s'.written = marks ++ c :: s.written := by
  cases h with
  | other _ _ _ _ hmarks hwritten => exact ⟨_, hmarks, hwritten⟩
  | inside _ _ hwritten => exact ⟨[], .inl rfl, hwritten⟩
  | opening _ _ _ hwritten => exact ⟨[], .inl rfl, hwritten⟩
  | closing _ _ _ hwritten => exact ⟨[], .inl rfl, hwritten⟩
  | quote _ _ _ hwritten => exact ⟨[], .inl rfl, hwritten⟩

theorem suffix_of_scanFrom {n : Nat} (hscan : scanFrom s back line = .ok (s', n)) :
    s.written <:+ s'.written := by
  induction line generalizing s back with
  | nil =>
    cases hscan
    exact suffix_refl _
  | cons c ahead ih =>
    rcases scanFrom_cases hscan with rfl | ⟨next, hmoves, hscan⟩
    · exact suffix_refl _
    · obtain ⟨marks, -, hwritten⟩ := hmoves.written_eq
      refine List.IsSuffix.trans ?_ (ih hscan)
      rw [hwritten]
      exact (suffix_cons c s.written).trans (suffix_append marks _)

theorem ne_of_isBlank (h : isBlank c = true) (hd : isBlank q = false) : c ≠ q := by
  rintro rfl
  cases h.symm.trans hd

theorem isQuote_of_isBlank (h : isBlank c = true) : isQuote c = false := by
  rw [isQuote, Bool.or_eq_false_iff, beq_eq_false_iff_ne, beq_eq_false_iff_ne]
  exact ⟨ne_of_isBlank h (by decide), ne_of_isBlank h (by decide)⟩

theorem Scan.Moves.stack_eq (h : s.Moves back c s') (hblank : isBlank c = true) :
    s'.stack = s.stack := by
  cases h with
  | inside _ hstack _ => exact hstack
  | other _ _ _ hstack _ _ => exact hstack
  | opening _ hframe _ _ =>
    unfold Frame.ofOpener? at hframe
    split at hframe <;> first | exact absurd rfl (ne_of_isBlank hblank (by decide)) | cases hframe
  | closing _ hcloser _ _ =>
    simp only [isCloser, Bool.or_eq_true, beq_iff_eq] at hcloser
    rcases hcloser with (rfl | rfl) | rfl <;> exact absurd rfl (ne_of_isBlank hblank (by decide))
  | @quote frame _ hframe _ _ =>
    exact absurd (isQuote_of_quote? hframe) (by simp [isQuote_of_isBlank hblank])

/-- A line of which only blanks are written does not move the stack. -/
theorem stack_of_scanFrom {n : Nat} (hscan : scanFrom s back line = .ok (s', n))
    (hblank : allBlank s'.written = true) : s'.stack = s.stack := by
  induction line generalizing s back with
  | nil =>
    cases hscan
    rfl
  | cons c ahead ih =>
    rcases scanFrom_cases hscan with rfl | ⟨next, hmoves, hscan⟩
    · rfl
    · obtain ⟨marks, -, hwritten⟩ := hmoves.written_eq
      have hc : isBlank c = true := by
        rw [allBlank, all_eq_true] at hblank
        refine hblank c ((suffix_of_scanFrom hscan).subset ?_)
        rw [hwritten]
        exact mem_append_right marks mem_cons_self
      exact (ih hscan).trans (hmoves.stack_eq hc)

end Cppward.Layout
