import Cppward.Layout.Block
import Cppward.Proofs.Layout.Tracking

namespace Cppward.Layout

open Text List

/-!
# Blocks are whole statements

The layout of a text is cut into blocks that are read on their own.  No text is lost by this, and no
cut goes through a bracket or a literal.

* `checkIndent_cases` — indentation can close one indented block, and nothing else.
* `Progress.Adds` — what a line adds to the text and to the blocks (`adds_of_fullLine`).
* `blocks_of_layout` — the blocks hold the whole text, all but the last are closed and end in a
  semicolon, and the last one is blank.
-/

variable {isComment : Bool} {c : Char} {text added : List Char} {angles stop : Nat} {scan : Scan}
variable {p p' : Progress} {stack : List Frame} {back raw : List Char} {number width : Nat}
  {m : Marks}

/-! ### Indentation -/

theorem Nested.of_head (h : Nested stack) (hhead : stack.head? = some .indent) :
    stack = [.indent] ∨ ∃ rest, stack = .indent :: .paren :: rest ∧ Nested (.paren :: rest) := by
  cases h with
  | outermost => exact .inl rfl
  | @block rest h => exact .inr ⟨rest, rfl, h⟩
  | bracket hframe _ _ =>
    cases hhead
    cases hframe
  | literal hframe _ _ =>
    cases hhead
    cases hframe

/-- A line leaves the stack as it is, or closes the innermost indented block. -/
theorem checkIndent_cases (hnested : Nested p.stack)
    (h : checkIndent p width isComment = .ok stack) :
    stack = p.stack ∨ ∃ rest, stack = .paren :: rest ∧ p.stack = .indent :: .paren :: rest := by
  unfold checkIndent at h
  simp only [bind, Except.bind, pure, Except.pure, throw, throwThe, MonadExceptOf.throw] at h
  split at h
  · cases h
    exact .inl rfl
  next hfree =>
  have hhead : p.stack.head? = some .indent := by
    simp only [Bool.or_eq_true, bne_iff_ne, not_or, not_not] at hfree
    exact hfree.1
  split at h
  · next hless =>
    split at h
    · cases h
    split at h
    · cases h
    rcases hnested.of_head hhead with hstack | ⟨rest, hstack, -⟩
    · rw [hstack] at hless
      exact absurd hless (Nat.not_lt_zero width)
    · rw [hstack] at h ⊢
      -- a second block cannot be closed, a parenthesis is open below the first
      match hk : (column (.indent :: .paren :: rest) - width) / tabWidth with
      | 0 =>
        rw [hk] at h
        cases h
        exact .inl rfl
      | 1 =>
        rw [hk] at h
        cases h
        exact .inr ⟨rest, rfl, rfl⟩
      | _ + 2 =>
        rw [hk] at h
        cases h
  · split at h
    · cases h
    · cases h
      exact .inl rfl

namespace Tracks

theorem replicate (hquote : isQuote c = false) (hbracket : isBracket c = false)
    (hc : c ≠ '\\') (n : Nat) (h : Tracks stack [] m) :
    Tracks stack [] ((List.replicate n c).foldl Marks.step m) := by
  induction n generalizing m with
  | zero => exact h
  | succ n ih => exact ih (h.neutral hquote hbracket fun _ => endsAlike_of_ne hc (by simp))

/-- After the end of a line and the margin of the next one, a new line is read. -/
theorem margin (h : Tracks stack back m) (width : Nat) :
    Tracks stack [] (('\n' :: List.replicate width ' ').foldl Marks.step m) := by
  refine replicate (by decide) (by decide) (by decide) width ?_
  exact h.neutral (by decide) (by decide) fun _ => endsAlike_of_ne (by decide) (by simp)

theorem dedent {rest : List Frame} (h : Tracks (.indent :: .paren :: rest) back m) :
    Tracks (.paren :: rest) back m := by
  obtain ⟨hnested, hliteral, hleaves, hends⟩ := h
  refine ⟨?_, hliteral, hleaves, hends⟩
  rcases hnested.of_head rfl with hstack | ⟨_, hstack, hnested⟩
  · cases hstack
  · cases hstack
    exact hnested

theorem block {rest : List Frame} (h : Tracks (.paren :: rest) back m) :
    Tracks (.indent :: .paren :: rest) back m :=
  ⟨.block h.nested, h.literal, h.leaves, h.ends⟩

/-- Where no literal is open, a mark or a semicolon changes nothing. -/
theorem ending (h : Tracks stack back (marks (text ++ added)))
    (hliteral : literalOf stack = none) (hquote : isQuote c = false)
    (hbracket : isBracket c = false) : Tracks stack back (marks (text ++ (added ++ [c]))) := by
  rw [← append_assoc, marks_append]
  refine h.neutral hquote hbracket fun hsome => ?_
  rw [h.literal, hliteral] at hsome
  cases hsome

/-- The stack at the start of a line records what is open there. -/
theorem of_checkIndent {width : Nat} (h : Tracks p.stack back m)
    (hindent : checkIndent p width isComment = .ok stack) : Tracks stack back m := by
  rcases checkIndent_cases h.nested hindent with hsame | ⟨rest, hstack, hdedent⟩
  · rw [hsame]
    exact h
  · rw [hdedent] at h
    rw [hstack]
    exact h.dedent

theorem of_scanLine {line : List Char} (h : Tracks stack back (marks text)) (width : Nat)
    (hscan : scanLine stack angles line = .ok (scan, stop)) : ∃ back', Tracks scan.stack back'
      (marks (text ++ ('\n' :: List.replicate width ' ' ++ scan.written.reverse))) := by
  obtain ⟨written, back', hwritten, hend⟩ := (h.margin width).scanFrom hscan
  have hwritten : scan.written.reverse = written := by rw [hwritten]; simp
  rw [← hwritten, ← foldl_append, ← marks_append] at hend
  exact ⟨back', hend⟩

end Tracks

theorem tracks_newlines (n : Nat) : Tracks [.indent] [] (marks (List.replicate n '\n')) := by
  refine Tracks.replicate (by decide) (by decide) (by decide) n ?_
  exact ⟨.outermost, rfl, .none .nil, nofun⟩

theorem allBlank_replicate (h : isBlank c = true) (n : Nat) :
    allBlank (List.replicate n c) = true := by
  refine all_eq_true.mpr fun x hx => ?_
  rw [eq_of_mem_replicate hx]
  exact h

/-! ### One line -/

/-- Text is added to the block that is being written. -/
structure Progress.Grows (p p' : Progress) (added : List Char) : Prop where
  whole : p'.whole = p.whole ++ added
  finished : p'.finished = p.finished
  current : p'.current.text = p.current.text ++ added

/-- Text is added to the block that is being written, and a new block is begun, which starts with
    newlines. -/
structure Progress.Cuts (p p' : Progress) (added : List Char) : Prop where
  whole : p'.whole = p.whole ++ added
  finished : p'.finished = { p.current with text := p.current.text ++ added } :: p.finished
  current : ∃ number, p'.current.text = List.replicate number '\n'

/-- What a line can do to the state, once its characters have been read and are to be added with the
    margin before them. -/
inductive Progress.Adds (p : Progress) (scan : Scan) (added : List Char) (p' : Progress) : Prop
  | opens {rest : List Frame} (hscan : scan.stack = .paren :: rest)
      (hstack : p'.stack = .indent :: scan.stack) (hadded : p.Grows p' (added ++ [blockMark]))
  | statement (hscan : scan.stack.head? = some .indent) (hlength : scan.stack.length ≠ 1)
      (hstack : p'.stack = scan.stack) (hadded : p.Grows p' (added ++ [';']))
  | outermost (hscan : scan.stack = [.indent]) (hstack : p'.stack = scan.stack)
      (hadded : p.Cuts p' (added ++ [';']))
  | part (hscan : scan.stack.head? = some .indent → allBlank scan.written.reverse = true)
      (hstack : p'.stack = scan.stack) (hadded : p.Grows p' added)

theorem replicate_append_dropWhile (raw : List Char) :
    List.replicate (raw.takeWhile (· == ' ')).length ' ' ++ raw.dropWhile (· == ' ') = raw := by
  have hspaces : raw.takeWhile (· == ' ') = List.replicate (raw.takeWhile (· == ' ')).length ' ' := by
    refine eq_replicate_of_mem fun c hc => ?_
    simpa using all_eq_true.mp all_takeWhile c hc
  rw [← hspaces, takeWhile_append_dropWhile]

/-- What a line that is accepted does to the progress. -/
theorem Progress.fullLine_eq_ok (h : p.fullLine false number raw = .ok p') :
    ∃ (stack : List Frame) (scan : Scan) (stop : Nat),
      checkIndent p (raw.takeWhile (· == ' ')).length
        ((raw.dropWhile (· == ' ')).head? == some '#') = .ok stack ∧
      scanLine stack p.angles (raw.dropWhile (· == ' ')) = .ok (scan, stop) ∧
        p.Adds scan ('\n' :: List.replicate (raw.takeWhile (· == ' ')).length ' ' ++
          scan.written.reverse) p' := by
  unfold Progress.fullLine at h
  simp only [bind, Except.bind, pure, Except.pure] at h
  split at h
  · cases h
  next stack hstack =>
  split at h
  · cases h
  next result hscan =>
  obtain ⟨scan, stop⟩ := result
  refine ⟨stack, scan, stop, hstack, hscan, ?_⟩
  simp only [Bool.false_and, Bool.false_eq_true, if_false] at h
  split at h
  · next hopens =>
    rw [Bool.and_eq_true, beq_iff_eq] at hopens
    obtain ⟨rest, hrest⟩ := head?_eq_some_iff.mp hopens.1
    cases h
    refine .opens hrest rfl ⟨?_, rfl, ?_⟩ <;> simp [append_assoc]
  split at h
  · next hends =>
    rw [Bool.and_eq_true, beq_iff_eq] at hends
    -- a statement outside of all blocks also ends the block of text
    by_cases hlength : scan.stack.length = 1
    · have hone : scan.stack = [.indent] := by
        obtain ⟨frame, hframe⟩ := length_eq_one_iff.mp hlength
        rw [hframe] at hends ⊢
        cases hends.1
        rfl
      cases h
      refine .outermost hone rfl ⟨?_, ?_, ⟨number, ?_⟩⟩ <;> simp [hlength, append_assoc]
    · cases h
      refine .statement hends.1 hlength rfl ⟨?_, ?_, ?_⟩ <;> simp [hlength, append_assoc]
  · next hends =>
    cases h
    refine .part (fun hhead => ?_) rfl ⟨?_, rfl, ?_⟩
    · simpa [hhead] using hends
    · simp [append_assoc]
    · simp [append_assoc]

theorem Progress.adds_of_fullLine (h : p.fullLine false number raw = .ok p') :
    ∃ (width : Nat) (isComment : Bool) (stack : List Frame) (line : List Char) (scan : Scan)
      (stop : Nat), raw = List.replicate width ' ' ++ line ∧
        checkIndent p width isComment = .ok stack ∧
        scanLine stack p.angles line = .ok (scan, stop) ∧
          p.Adds scan ('\n' :: List.replicate width ' ' ++ scan.written.reverse) p' := by
  obtain ⟨stack, scan, stop, hstack, hscan, hadds⟩ := fullLine_eq_ok h
  exact ⟨_, _, stack, _, scan, stop, (replicate_append_dropWhile raw).symm, hstack, hscan, hadds⟩

/-! ### The invariant -/

def unbroken (text : List Char) : List Char := text.filter (· != '\n')

theorem unbroken_append (text more : List Char) :
    unbroken (text ++ more) = unbroken text ++ unbroken more := filter_append ..

/-- The blocks so far, in the order of the text. -/
def Progress.blocks (p : Progress) : List Block := (p.current :: p.finished).reverse

/-- The state between two lines: the stack records what the current block leaves open, nothing but
    blanks stands behind the last finished block at the outermost level, and the finished blocks are
    whole statements. -/
structure Progress.Sound (p : Progress) : Prop where
  tracks : ∃ back, Tracks p.stack back (marks p.current.text)
  blank : p.stack = [.indent] → allBlank p.current.text = true
  finished : ∀ b ∈ p.finished, b.text.getLast? = some ';' ∧ Closed b.text
  whole : unbroken p.whole = unbroken (p.blocks.flatMap Block.text)

theorem Progress.Grows.whole_eq (h : p.Grows p' added) (hp : p.Sound) :
    unbroken p'.whole = unbroken (p'.blocks.flatMap Block.text) := by
  rw [h.whole, unbroken_append, hp.whole, Progress.blocks, Progress.blocks, h.finished]
  simp [h.current, unbroken_append]

theorem Progress.Cuts.whole_eq (h : p.Cuts p' added) (hp : p.Sound) :
    unbroken p'.whole = unbroken (p'.blocks.flatMap Block.text) := by
  obtain ⟨number, hcurrent⟩ := h.current
  have hnewlines : unbroken (List.replicate number '\n') = [] := by
    rw [unbroken, filter_replicate, if_neg (by decide)]
  rw [h.whole, unbroken_append, hp.whole, Progress.blocks, Progress.blocks, h.finished]
  simp [hcurrent, unbroken_append, hnewlines]

theorem Progress.Grows.sound (h : p.Grows p' added) (hp : p.Sound)
    (htracks : ∃ back, Tracks p'.stack back (marks (p.current.text ++ added)))
    (hblank : p'.stack = [.indent] → allBlank (p.current.text ++ added) = true) : p'.Sound where
  tracks := h.current ▸ htracks
  blank := h.current ▸ hblank
  finished := h.finished ▸ hp.finished
  whole := h.whole_eq hp

/-- A block is finished where nothing is open, so that it is a whole statement. -/
theorem Progress.Cuts.sound (h : p.Cuts p' (added ++ [';'])) (hp : p.Sound)
    (hstack : p'.stack = [.indent])
    (htracks : Tracks [.indent] back (marks (p.current.text ++ (added ++ [';'])))) : p'.Sound := by
  obtain ⟨number, hcurrent⟩ := h.current
  refine ⟨⟨[], ?_⟩, ?_, ?_, h.whole_eq hp⟩
  · rw [hstack, hcurrent]
    exact tracks_newlines number
  · intro _
    rw [hcurrent]
    exact allBlank_replicate (by decide) number
  · rw [h.finished]
    intro b hb
    rcases mem_cons.mp hb with rfl | hb
    · refine ⟨?_, htracks.literal, htracks.leaves.balanced⟩
      show (p.current.text ++ _).getLast? = some ';'
      rw [← append_assoc, getLast?_concat]
    · exact hp.finished b hb

/-- A blank line that ends at the outermost level has started there, behind blanks only. -/
theorem Progress.Sound.allBlank_append {width : Nat} {line : List Char} (hp : p.Sound)
    (hindent : checkIndent p width isComment = .ok stack)
    (hscan : scanLine stack angles line = .ok (scan, stop)) (hone : scan.stack = [.indent])
    (hblank : allBlank scan.written.reverse = true) :
    allBlank (p.current.text ++ ('\n' :: List.replicate width ' ' ++ scan.written.reverse)) =
      true := by
  obtain ⟨back, htracks⟩ := hp.tracks
  have hsame : scan.stack = stack := by
    refine stack_of_scanFrom hscan ?_
    simpa [allBlank] using hblank
  have hcurrent : allBlank p.current.text = true := by
    refine hp.blank ?_
    rcases checkIndent_cases htracks.nested hindent with hstart | ⟨rest, hstack, -⟩
    · rw [← hstart, ← hsame, hone]
    · -- behind a dedent the stack starts with a parenthesis
      rw [← hsame, hone] at hstack
      cases hstack
  simp only [allBlank, all_append, Bool.and_eq_true] at hblank hcurrent ⊢
  refine ⟨hcurrent, ?_, hblank⟩
  rw [all_cons, Bool.and_eq_true]
  exact ⟨by decide, allBlank_replicate (by decide) width⟩

/-- **One line** keeps the invariant. -/
theorem Progress.Sound.fullLine (hp : p.Sound) (h : p.fullLine false number raw = .ok p') :
    p'.Sound := by
  obtain ⟨width, isComment, stack, line, scan, stop, -, hindent, hscan, hadds⟩ := adds_of_fullLine h
  obtain ⟨back, htracks⟩ := hp.tracks
  obtain ⟨back', hend⟩ := (htracks.of_checkIndent hindent).of_scanLine width hscan
  cases hadds with
  | opens hstack hstack' hadded =>
    rw [hstack] at hstack' hend
    refine hadded.sound hp ⟨back', ?_⟩ ?_
    · rw [hstack']
      exact (hend.ending rfl (by decide) (by decide)).block
    · rw [hstack']
      exact nofun
  | statement hhead hlength hstack' hadded =>
    refine hadded.sound hp ⟨back', ?_⟩ fun hone => absurd (by rw [← hstack', hone]; rfl) hlength
    rw [hstack']
    exact hend.ending (by rw [literalOf, hhead]; rfl) (by decide) (by decide)
  | outermost hone hstack' hadded =>
    rw [hone] at hstack' hend
    exact hadded.sound hp hstack' (hend.ending rfl (by decide) (by decide))
  | part hhead hstack' hadded =>
    refine hadded.sound hp ⟨back', ?_⟩ fun hone => ?_
    · rw [hstack']
      exact hend
    · rw [hstack'] at hone
      exact hp.allBlank_append hindent hscan hone (hhead (by rw [hone]; rfl))

/-- A blank line is added to the whole text only. -/
theorem Progress.line_cases (h : p.line false number raw = .ok p') :
    (stripRight raw = [] ∧ p' = { p with whole := p.whole ++ ['\n'] }) ∨
      (stripRight raw ≠ [] ∧ p.fullLine false number (stripRight raw) = .ok p') := by
  unfold Progress.line at h
  dsimp only at h
  split at h
  · next hempty =>
    cases h
    exact .inl ⟨List.isEmpty_iff.mp hempty, rfl⟩
  · next hempty =>
    split at h
    · next hfull =>
      cases h
      exact .inr ⟨fun hnil => hempty (by rw [hnil]; rfl), hfull⟩
    · cases h

theorem Progress.lines_induction {P : Progress → Prop} {hide : Bool} {last : Nat}
    {raws : List (List Char)} (hp : P p) (h : p.lines hide number raws = .ok (p', last))
    (hline : ∀ raw ∈ raws, ∀ p number p', P p → p.line hide number raw = .ok p' → P p') : P p' := by
  induction raws generalizing p number with
  | nil =>
    cases h
    exact hp
  | cons raw raws ih =>
    rw [forall_mem_cons] at hline
    rw [Progress.lines] at h
    obtain ⟨next, hnext, h⟩ := Failing.bind_eq_ok.mp h
    exact ih (hline.1 p number next hp hnext) h hline.2

theorem Progress.lines_append {hide : Bool} (p : Progress) (number : Nat)
    (raws raws' : List (List Char)) :
    p.lines hide number (raws ++ raws') =
      p.lines hide number raws >>= fun x => x.1.lines hide (number + raws.length) raws' := by
  induction raws generalizing p number with
  | nil => rfl
  | cons raw raws ih =>
    rw [cons_append, Progress.lines, Progress.lines]
    cases p.line hide number raw with
    | error e => rfl
    | ok p' =>
      rw [length_cons, ← Nat.add_assoc, Nat.add_right_comm]
      exact ih p' (number + 1)

theorem Progress.Sound.line (hp : p.Sound) (h : p.line false number raw = .ok p') : p'.Sound := by
  rcases Progress.line_cases h with ⟨-, rfl⟩ | ⟨-, hfull⟩
  · obtain ⟨htracks, hblank, hfinished, hwhole⟩ := hp
    refine ⟨htracks, hblank, hfinished, ?_⟩
    rw [unbroken_append, hwhole]
    exact append_nil _
  · exact hp.fullLine hfull

/-- **All lines** keep the invariant. -/
theorem Progress.Sound.lines {last : Nat} {raws : List (List Char)} (hp : p.Sound)
    (h : p.lines false number raws = .ok (p', last)) : p'.Sound :=
  Progress.lines_induction hp h fun _ _ _ _ _ hp hline => hp.line hline

theorem Progress.sound_start : Progress.Sound {} where
  tracks := ⟨[], tracks_newlines 0⟩
  blank _ := rfl
  finished _ h := by cases h
  whole := rfl

/-- Where no bracket and no literal is open, no indented block is. -/
theorem Nested.eq_outermost (h : Nested stack) (hall : stack.any (· != .indent) = false) :
    stack = [.indent] := by
  rw [any_eq_false] at hall
  cases h with
  | outermost => rfl
  | block _ => exact absurd (by decide) (hall .paren (by simp))
  | @bracket frame _ hframe _ _ =>
    have hindent := hall frame mem_cons_self
    simp only [bne_iff_ne, not_not] at hindent
    rw [hindent] at hframe
    cases hframe
  | @literal frame _ hframe _ _ =>
    have hindent := hall frame mem_cons_self
    simp only [bne_iff_ne, not_not] at hindent
    rw [hindent] at hframe
    cases hframe

/-- **Blocks are whole statements.**  But for newlines, the blocks of a layout hold the text that it
    writes; every block but the last ends in a semicolon, outside literals and with balanced
    brackets; the last one is blank. -/
theorem blocks_of_layout (text : List Char) (l : Arrangement) (h : layout text = .ok l) :
    unbroken l.whole = unbroken (l.blocks.flatMap Block.text) ∧
      ∃ blocks last, l.blocks = blocks ++ [last] ∧
        (∀ b ∈ blocks, b.text.getLast? = some ';' ∧ Closed b.text) ∧ allBlank last.text = true := by
  unfold layout at h
  simp only [bind, Except.bind, pure, Except.pure, throw, throwThe, MonadExceptOf.throw] at h
  split at h
  · cases h
  next result hlines =>
  obtain ⟨p, last⟩ := result
  have hp : p.Sound := Progress.sound_start.lines hlines
  split at h
  · cases h
  next hopen =>
  cases h
  refine ⟨hp.whole, p.finished.reverse, p.current, List.reverse_cons .., ?_, ?_⟩
  · intro b hb
    exact hp.finished b (List.mem_reverse.mp hb)
  · obtain ⟨back, htracks⟩ := hp.tracks
    exact hp.blank (htracks.nested.eq_outermost (Bool.not_eq_true _ ▸ hopen))

/-- A text with a block, brackets of all kinds, literals that hold brackets, and comments. -/
def sampleText : List Char :=
  "f(x, [y\x7b1\x7d]:  # (\n    g('a\\')b', \"#(\")\n\n)\nz # [\n  # end\n".toList

theorem blocks_of_sampleText : ∃ l, layout sampleText = .ok l ∧ l.blocks.length = 3 ∧
    unbroken l.whole = unbroken (l.blocks.flatMap Block.text) ∧
      ∃ blocks last, l.blocks = blocks ++ [last] ∧
        (∀ b ∈ blocks, b.text.getLast? = some ';' ∧ Closed b.text) ∧ allBlank last.text = true := by
  refine ⟨_, rfl, rfl, ?_⟩
  exact blocks_of_layout sampleText _ rfl

end Cppward.Layout
