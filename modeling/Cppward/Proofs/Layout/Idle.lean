import Cppward.Proofs.Layout.Literals
import Mathlib.Data.List.TakeWhile
import Mathlib.Logic.Relation

namespace Cppward.Layout

open Text List

/-!
# Idle lines

Blank lines and lines that hold nothing but a comment may be put into a text wherever a line ends
outside literals.

* `isIdle`, `AddsIdle` — such a line, and a text with one more of them.
* `flush` — a text without newlines and without the margins of its lines.
* `Progress.Padded` — the states of two layouts, of which the second one has read idle lines more;
  every line keeps this (`Padded.line`), and an idle line leads to it (`padded_of_isIdle`).
* `layout_of_addsIdle` — the blocks of the layout are the same, newlines and margins aside.
-/

variable {p p' : Progress} {number : Nat} {text text' raw : List Char}

/-- If the first computation succeeds, then so does the second one, with a related result. -/
def Leads {ε α β : Type} (R : α → β → Prop) (x : Except ε α) (y : Except ε β) : Prop :=
  ∀ a, x = .ok a → ∃ b, y = .ok b ∧ R a b

theorem Leads.bind {ε α β γ δ : Type} {R : α → β → Prop} {S : γ → δ → Prop} {x : Except ε α}
    {y : Except ε β} {f : α → Except ε γ} {g : β → Except ε δ} (h : Leads R x y)
    (hf : ∀ a b, R a b → Leads S (f a) (g b)) : Leads S (x >>= f) (y >>= g) := by
  intro c hc
  obtain ⟨a, ha, hc⟩ := Failing.bind_eq_ok.mp hc
  obtain ⟨b, rfl, hab⟩ := h a ha
  exact hf a b hab c hc

theorem Leads.ok {ε α β : Type} {R : α → β → Prop} {a : α} {b : β} (h : R a b) :
    Leads R (.ok a : Except ε α) (.ok b) := by
  rintro _ ⟨⟩
  exact ⟨b, rfl, h⟩

/-- A line of blanks, or of spaces and a comment. -/
def isIdle (line : List Char) : Bool :=
  allBlank line || (line.dropWhile (· == ' ')).head? == some '#'

/-- The second text has an idle line more, at a place outside literals. -/
def AddsIdle (text text' : List Char) : Prop :=
  ∃ before line after, Text.lines text = before ++ after ∧
    Text.lines text' = before ++ line :: after ∧ isIdle line = true ∧
      (quotes (before.flatMap fun raw => raw ++ ['\n'])).literal = none

/-! ### Margins -/

/-- A text without newlines and without the spaces at the start of lines; `start` tells whether the
    text starts a line. -/
def flushFrom : (start : Bool) → List Char → List Char
  | _, [] => []
  | start, c :: cs =>
    if c == '\n' || start && c == ' ' then flushFrom true cs else c :: flushFrom false cs

/-- A text without newlines and without the margins of its lines. -/
def flush (text : List Char) : List Char := flushFrom true text

theorem flushFrom_append (start : Bool) (u v : List Char) :
    flushFrom start (u ++ '\n' :: v) = flushFrom start u ++ flush v := by
  induction u generalizing start with
  | nil => simp [flushFrom, flush]
  | cons c u ih =>
    simp only [cons_append, flushFrom, ih]
    split
    · rfl
    · rw [cons_append]

theorem flush_margin (width : Nat) : flush (List.replicate width ' ') = [] := by
  induction width with
  | zero => rfl
  | succ width ih => simpa [replicate_succ, flush, flushFrom] using ih

theorem flush_newlines (n : Nat) : flush (List.replicate n '\n') = [] := by
  induction n with
  | zero => rfl
  | succ n ih => simpa [replicate_succ, flush, flushFrom] using ih

/-! ### Lines -/

/-- The second state has the same frames open, and has written the same blocks but for newlines and
    margins. -/
structure Progress.Padded (p p' : Progress) : Prop where
  stack : p'.stack = p.stack
  angles : p'.angles = p.angles
  began : p'.began = true → p.began = true
  finished : p'.finished.map (flush ·.text) = p.finished.map (flush ·.text)
  current : flush p'.current.text = flush p.current.text

namespace Progress.Padded

theorem checkIndent {width : Nat} {isComment : Bool} {stack : List Frame} (h : p.Padded p')
    (hp : Layout.checkIndent p width isComment = .ok stack) :
    Layout.checkIndent p' width isComment = .ok stack := by
  unfold Layout.checkIndent at hp ⊢
  simp only [bind, Except.bind, pure, Except.pure, throw, throwThe, MonadExceptOf.throw] at hp ⊢
  rw [h.stack]
  cases hbegan : p'.began with
  | true => rwa [h.began hbegan] at hp
  | false =>
    -- only a dedent asks for it, and it is refused right behind the opening of a block
    cases hbegan' : p.began with
    | false => rwa [hbegan'] at hp
    | true => grind

/-- Padding has no influence on a line. -/
theorem fullLine (h : p.Padded p') (number number' : Nat) (raw : List Char) :
    Leads Padded (p.fullLine false number raw) (p'.fullLine false number' raw) := by
  have hcurrent (width : Nat) (cs : List Char) :
      flush (p'.current.text ++ '\n' :: List.replicate width ' ' ++ cs) =
        flush (p.current.text ++ '\n' :: List.replicate width ' ' ++ cs) := by
    simp only [append_assoc, cons_append, flush, flushFrom_append]
    rw [← flush, h.current, flush]
  unfold Progress.fullLine
  refine .bind (fun stack hstack => ⟨stack, h.checkIndent hstack, rfl⟩) ?_
  rintro stack _ rfl
  rw [h.angles]
  refine .bind (fun result hresult => ⟨result, hresult, rfl⟩) ?_
  rintro ⟨scan, stop⟩ _ rfl
  dsimp only
  split
  · exact .ok ⟨rfl, rfl, id, h.finished, hcurrent _ _⟩
  split
  · -- a statement of the outermost level ends its block
    cases scan.stack.length == 1 with
    | true =>
      have hnewlines := (flush_newlines number').trans (flush_newlines number).symm
      exact .ok ⟨rfl, rfl, id, congrArg₂ cons (hcurrent _ _) h.finished, hnewlines⟩
    | false => exact .ok ⟨rfl, rfl, id, h.finished, hcurrent _ _⟩
  · exact .ok ⟨rfl, rfl, id, h.finished, hcurrent _ _⟩

theorem line (h : p.Padded p') (number number' : Nat) (raw : List Char) :
    Leads Padded (p.line false number raw) (p'.line false number' raw) := by
  unfold Progress.line
  intro r hr
  dsimp only at hr ⊢
  split at hr
  · next hblank =>
    cases hr
    rw [if_pos hblank]
    exact ⟨_, rfl, h.stack, h.angles, h.began, h.finished, h.current⟩
  · next hblank =>
    rw [if_neg hblank]
    split at hr
    · next hfull =>
      cases hr
      obtain ⟨r', hr', hpadded⟩ := h.fullLine number number' (stripRight raw) r hfull
      rw [hr']
      exact ⟨r', rfl, hpadded⟩
    · cases hr

theorem lines (h : p.Padded p') (number number' : Nat) (raws : List (List Char)) :
    Leads (fun x y => x.1.Padded y.1) (p.lines false number raws) (p'.lines false number' raws) := by
  induction raws generalizing p p' number number' with
  | nil => exact .ok h
  | cons raw raws ih => exact (h.line number number' raw).bind fun r r' hr => ih hr _ _

end Progress.Padded

/-- A line that starts with a comment still does when the blanks at its end are dropped. -/
theorem head?_dropWhile_stripRight (h : (raw.dropWhile (· == ' ')).head? = some '#') :
    ((stripRight raw).dropWhile (· == ' ')).head? = some '#' := by
  obtain ⟨w, hraw, hw⟩ := stripRight_append raw
  rw [hraw, dropWhile_append] at h
  split at h
  · -- the hash sign is no blank
    have hmem := (dropWhile_sublist _).subset (mem_of_head? h)
    exact absurd (all_eq_true.mp hw _ hmem) (by decide)
  · next hne =>
    rw [head?_append] at h
    cases hhead : ((stripRight raw).dropWhile (· == ' ')).head? with
    | none => simp [head?_eq_none_iff.mp hhead] at hne
    | some c => simpa [hhead] using h

theorem scanLine_comment {stack : List Frame} {angles : Nat} {line : List Char}
    (hliteral : literalOf stack = none) (hline : line.head? = some '#') :
    scanLine stack angles line = .ok ({ stack, angles }, 0) := by
  obtain ⟨rest, rfl⟩ := head?_eq_some_iff.mp hline
  have hinside : ({ stack, angles } : Scan).isInside '#' = false :=
    isInside_eq_false_iff.mpr fun q hq => by simp [hliteral] at hq
  have hstep : ({ stack, angles } : Scan).step [] '#' rest = .ok none := by
    rw [Scan.step, hinside]
    rfl
  rw [scanLine, scanFrom, hstep]
  rfl

/-- **An idle line** outside literals is written as a margin at most. -/
theorem padded_of_isIdle (hidle : isIdle raw = true) (hliteral : literalOf p.stack = none) :
    ∃ p', p.line false number raw = .ok p' ∧ p.Padded p' := by
  unfold Progress.line
  dsimp only
  split
  · exact ⟨_, rfl, rfl, rfl, id, rfl, rfl⟩
  next hblank =>
  rw [isIdle, Bool.or_eq_true, beq_iff_eq] at hidle
  rcases hidle with hidle | hidle
  · have hempty : stripRight raw = [] := by
      simpa [stripRight, allBlank] using hidle
    exact absurd (isEmpty_iff.mpr hempty) hblank
  have hhash := head?_dropWhile_stripRight hidle
  have hindent (width : Nat) : checkIndent p width true = .ok p.stack := by
    simp [checkIndent, pure, Except.pure]
  unfold Progress.fullLine
  simp only [hhash, beq_self_eq_true, hindent, bind, Except.bind, scanLine_comment hliteral hhash]
  -- nothing is left of the line, which therefore opens no block and ends no statement
  simp only [Bool.and_false, Bool.false_eq_true, if_false, reverse_nil, allBlank, all_nil,
    Bool.not_true, pure, Except.pure, append_nil]
  refine ⟨_, rfl, rfl, rfl, fun h => absurd h Bool.false_ne_true, rfl, ?_⟩
  rw [flush, flushFrom_append, flush_margin, append_nil, flush]

/-! ### Texts -/

/-- The layouts have the same blocks, newlines and margins aside. -/
def Resembles (l l' : Arrangement) : Prop :=
  l.blocks.map (flush ·.text) = l'.blocks.map (flush ·.text)

/-- **One idle line more.** -/
theorem AddsIdle.layout (h : AddsIdle text text') :
    Leads Resembles (layout text false) (layout text' false) := by
  obtain ⟨before, line, after, htext, htext', hidle, hliteral⟩ := h
  unfold Layout.layout
  refine .bind (R := fun x y => x.1.Padded y.1) ?_ ?_
  · intro x hx
    rw [htext, Progress.lines_append] at hx
    obtain ⟨⟨p, last⟩, hp, hx⟩ := Failing.bind_eq_ok.mp hx
    have hreads := Progress.reads_start.lines
      (fun raw hraw => not_mem_of_mem_lines text raw (by simp [htext, hraw])) hp
    obtain ⟨back, htracks⟩ := hreads.tracks
    have hstack : literalOf p.stack = none := by
      rw [← htracks.literal, ← hreads.apart.source]
      exact hliteral
    obtain ⟨p', hp', hpadded⟩ := padded_of_isIdle hidle hstack
    obtain ⟨y, hy, hxy⟩ := hpadded.lines (1 + before.length) (1 + before.length + 1) after x hx
    refine ⟨y, ?_, hxy⟩
    rw [htext', Progress.lines_append, hp]
    show (p.line false _ line >>= fun p => p.lines false _ after) = _
    rw [hp']
    exact hy
  · rintro ⟨p, last⟩ ⟨p', last'⟩ hpadded l hl
    dsimp only at hl ⊢
    rw [hpadded.stack]
    split at hl
    · cases hl
    · next hclosed =>
      rw [if_neg hclosed]
      cases hl
      refine ⟨_, rfl, ?_⟩
      simp [Resembles, hpadded.finished, hpadded.current]

/-- **Idle lines do not matter.**  However many blank lines and comment lines are put between the
    lines of a text, outside its literals, the text can still be laid out, with as many blocks as
    before and with the same characters in each of them, newlines and margins aside. -/
theorem layout_of_addsIdle (text text' : List Char) (hide : Bool) (l : Arrangement)
    (htext : Relation.ReflTransGen AddsIdle text text') (hl : layout text hide = .ok l) :
    ∃ l', layout text' hide = .ok l' ∧ l'.blocks.length = l.blocks.length ∧
      l'.blocks.map (flush ·.text) = l.blocks.map (flush ·.text) := by
  obtain ⟨l₀, hl₀, hblocks₀⟩ := exists_layout hl false
  suffices ∃ l', layout text' false = .ok l' ∧ Resembles l₀ l' by
    obtain ⟨l₁, hl₁, hresembles⟩ := this
    obtain ⟨l', hl', hblocks⟩ := exists_layout hl₁ hide
    rw [Resembles, hblocks₀, ← hblocks] at hresembles
    exact ⟨l', hl', by simpa using (congrArg length hresembles).symm, hresembles.symm⟩
  induction htext with
  | refl => exact ⟨l₀, hl₀, rfl⟩
  | tail _ hadds ih =>
    obtain ⟨l₁, hl₁, h₁⟩ := ih
    obtain ⟨l₂, hl₂, h₂⟩ := hadds.layout l₁ hl₁
    exact ⟨l₂, hl₂, h₁.trans h₂⟩

/-- A call with a block, and the same with lines more behind its opening and before its end. -/
theorem layout_of_addsIdle_call :
    ∃ l', layout "f(x:\n  # one\n\n    y\n)".toList true = .ok l' ∧ l'.blocks.map (flush ·.text) =
      ["f(x:\x07y;);".toList, []] := by
  obtain ⟨l, hl⟩ : ∃ l, layout "f(x:\n    y\n)".toList true = .ok l := ⟨_, rfl⟩
  have hone : AddsIdle "f(x:\n    y\n)".toList "f(x:\n  # one\n    y\n)".toList :=
    ⟨["f(x:".toList], "  # one".toList, ["    y".toList, ")".toList], by decide +kernel⟩
  have htwo : AddsIdle "f(x:\n  # one\n    y\n)".toList "f(x:\n  # one\n\n    y\n)".toList :=
    ⟨["f(x:".toList, "  # one".toList], [], ["    y".toList, ")".toList], by decide +kernel⟩
  obtain ⟨l', hl', -, hblocks⟩ :=
    layout_of_addsIdle _ _ true l (.tail (.tail .refl hone) htwo) hl
  refine ⟨l', hl', hblocks.trans ?_⟩
  cases hl
  decide +kernel

end Cppward.Layout
