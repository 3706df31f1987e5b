import Cppward.Proofs.Layout.Hiding
import Cppward.Proofs.Layout.Splitting
import Mathlib.Data.List.Chain

namespace Cppward.Layout

open Text List

/-!
# The states of a layout

* `Comes` — the states in which the characters of a text are met.
* `Comes.tracks` — the stack records what the block leaves open there.
* `InOrder`, `inOrder_of_comes` — the shape of all stacks, and what it says about dedents.
-/

variable {hide : Bool} {text base back rest : List Char} {s : Scan} {p : Progress} {width last : Nat}
  {stack : List Frame}

/-- **The states of a layout.**  While the lines of a text are read one after the other, the rest of
    a line is met with its characters `back` before it, and with `base` in its block before them. -/
inductive Comes (hide : Bool) (text : List Char) : List Char → Scan → List Char → List Char → Prop
  | line {before after : List (List Char)} {raw : List Char} {p : Progress} {last : Nat}
      {stack : List Frame} (hlines : Text.lines text = before ++ raw :: after)
      (hbefore : Progress.lines hide {} 1 before = .ok (p, last)) (hraw : stripRight raw ≠ [])
      (hindent : checkIndent p ((stripRight raw).takeWhile (· == ' ')).length
        (((stripRight raw).dropWhile (· == ' ')).head? == some '#') = .ok stack) :
      Comes hide text
        (p.current.text ++ '\n' :: List.replicate ((stripRight raw).takeWhile (· == ' ')).length ' ')
        { stack, angles := p.angles } [] ((stripRight raw).dropWhile (· == ' '))
  | next {base back ahead : List Char} {c : Char} {s s' : Scan}
      (h : Comes hide text base s back (c :: ahead))
      (hstep : s.step back c ahead = .ok (some s')) : Comes hide text base s' (c :: back) ahead

/-- Between lines, the stack records what the block leaves open. -/
theorem tracks_of_lines {before : List (List Char)}
    (h : Progress.lines hide {} 1 before = .ok (p, last)) :
    ∃ back, Tracks p.stack back (marks p.current.text) := by
  cases hide with
  | false => exact (Progress.sound_start.lines h).tracks
  | true =>
    have hstart : Hides 1 [] {} {} := ⟨rfl, rfl, rfl, .nil, nofun⟩
    rcases (hstart.lines before).cases with ⟨e, he, -⟩ | ⟨⟨p', _⟩, ⟨q, _⟩, hp', hq, -, _, _, hides⟩
    · cases he.symm.trans h
    · cases hp'.symm.trans h
      have hplain : q = { p with whole := _, hidden := [] } := hides.plain
      have htracks := (Progress.sound_start.lines hq).tracks
      rwa [hplain] at htracks

theorem Comes.tracks (h : Comes hide text base s back rest) :
    Tracks s.stack back (marks (base ++ s.written.reverse)) := by
  induction h with
  | line _ hbefore _ hindent =>
    obtain ⟨back, htracks⟩ := tracks_of_lines hbefore
    rw [reverse_nil, append_nil, marks_append]
    exact (htracks.of_checkIndent hindent).margin _
  | next _ hstep ih =>
    obtain ⟨added, hadded, htracks⟩ := ih.moves (Scan.moves_of_step hstep)
    rw [← marks_append] at htracks
    simpa [hadded] using htracks

/-- The outermost level is at the bottom, every other indented block stands in a parenthesis, and
    literals are on top only.  A statement starts four columns behind those of the block around. -/
structure InOrder (stack : List Frame) : Prop where
  bottom : stack.getLast? = some .indent
  chain : stack.IsChain fun above below => (above = .indent → below = .paren) ∧ below.quote? = none
  column : column stack = 4 * stack.dropLast.count .indent

/-- Nested frames are in the order of their places. -/
theorem Nested.inOrder (h : Nested stack) : InOrder stack := by
  have hcolumn {stack : List Frame} (hlast : stack.getLast? = some .indent) :
      Layout.column stack = 4 * stack.dropLast.count .indent := by
    obtain ⟨above, rfl⟩ := getLast?_eq_some_iff.mp hlast
    simp [Layout.column, tabWidth, Nat.mul_comm]
  -- no frame but an indented block is put on a literal or on an indented block
  have hpush {frame : Frame} {stack : List Frame} (hframe : frame ≠ .indent)
      (hliteral : literalOf stack = none) (ih : InOrder stack) : InOrder (frame :: stack) := by
    have hlast : (frame :: stack).getLast? = some .indent := by simp [getLast?_cons, ih.bottom]
    refine ⟨hlast, isChain_cons.mpr ⟨fun below hbelow => ⟨fun h => absurd h hframe, ?_⟩, ih.chain⟩,
      hcolumn hlast⟩
    rw [literalOf, Option.mem_def.mp hbelow] at hliteral
    exact hliteral
  induction h with
  | outermost => exact ⟨rfl, .singleton _, rfl⟩
  | @block stack _ ih =>
    have hlast : (Frame.indent :: .paren :: stack).getLast? = some .indent := by
      rw [getLast?_cons_cons]
      exact ih.bottom
    exact ⟨hlast, .cons_cons ⟨fun _ => rfl, rfl⟩ ih.chain, hcolumn hlast⟩
  | bracket hframe hliteral _ ih =>
    refine hpush ?_ hliteral ih
    rintro rfl
    cases hframe
  | literal hframe hliteral _ ih =>
    refine hpush ?_ hliteral ih
    rintro rfl
    cases hframe

/-- A dedent by more than a level is refused, since it would leave a parenthesis open. -/
theorem checkIndent_of_far (h : Nested p.stack) (hhead : p.stack.head? = some .indent)
    (hfar : width + 4 < column p.stack) :
    ∃ fault, checkIndent p width false = .error fault ∧ fault.isIndentation = true := by
  unfold checkIndent
  simp only [bind, Except.bind, pure, Except.pure, throw, throwThe, MonadExceptOf.throw]
  rw [if_neg (by simp [hhead]), if_pos (by omega)]
  split
  · exact ⟨_, rfl, rfl⟩
  split
  · exact ⟨_, rfl, rfl⟩
  next hmultiple =>
  rcases h.of_head hhead with hstack | ⟨rest, hstack, -⟩
  · rw [hstack] at hfar
    exact absurd hfar (Nat.not_lt_zero _)
  · obtain ⟨k, hk⟩ : ∃ k, (column p.stack - width) / tabWidth = k + 2 := by
      simp only [tabWidth, bne_iff_ne, not_not] at hmultiple ⊢
      exact ⟨(column p.stack - width) / 4 - 2, by omega⟩
    rw [hk, hstack]
    exact ⟨_, rfl, rfl⟩

/-- **The shape of stacks.**  At every character and between all lines, the frames are in order.
    A line that starts inside an indented block, other than a blank line or a comment, is refused if
    it starts more than a level to the left of the block. -/
theorem inOrder_of_comes (hide : Bool) (text : List Char) :
    (∀ base s back rest, Comes hide text base s back rest → InOrder s.stack) ∧
    ∀ before raw after p last, Text.lines text = before ++ raw :: after →
      Progress.lines hide {} 1 before = .ok (p, last) → InOrder p.stack ∧
      (p.stack.head? = some .indent → stripRight raw ≠ [] →
        ((stripRight raw).dropWhile (· == ' ')).head? ≠ some '#' →
        ((stripRight raw).takeWhile (· == ' ')).length + 4 < column p.stack →
        ∃ fault, layout text hide = .error ⟨fault, 1 + before.length⟩ ∧ fault.isIndentation = true) := by
  refine ⟨fun base s back rest h => h.tracks.nested.inOrder, ?_⟩
  intro before raw after p last hlines hbefore
  obtain ⟨back, htracks⟩ := tracks_of_lines hbefore
  refine ⟨htracks.nested.inOrder, fun hhead hraw hcomment hfar => ?_⟩
  obtain ⟨fault, hfault, hindentation⟩ := checkIndent_of_far htracks.nested hhead hfar
  refine ⟨fault, ?_, hindentation⟩
  have hfull : p.fullLine hide (1 + before.length) (stripRight raw) = .error fault := by
    unfold Progress.fullLine
    dsimp only
    rw [beq_eq_false_iff_ne.mpr hcomment, hfault]
    rfl
  have hline : p.line hide (1 + before.length) raw = .error ⟨fault, 1 + before.length⟩ := by
    simp [Progress.line, hraw, hfull]
  rw [layout, hlines, Progress.lines_append, hbefore]
  show (p.line hide _ raw >>= _) >>= _ = _
  rw [hline]
  rfl

/-- A comment may start anywhere. -/
theorem layout_farComment : ∃ l, layout "f(a:\n    g(b:\n        x\n# c\n        y\n    )\n)\n".toList = .ok l :=
  ⟨_, rfl⟩

end Cppward.Layout
