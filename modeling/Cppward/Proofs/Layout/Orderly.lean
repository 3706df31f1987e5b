import Cppward.Grammar.Token
import Cppward.Layout.Block
import Cppward.Proofs.Layout.Tracking
import Cppward.Proofs.Text.Character

namespace Cppward.Layout

open Text List

/-!
# Orderly texts

A text of names, commas, colons, balanced brackets and literals on a single line is left alone by
the layout, which only ends it by a semicolon.

* `Sealed` — the inside of a literal, where a quote is always escaped.
* `Orderly` — the texts in question.
* `layout_of_passes` — the layout of such a line is a single block.
-/

/-- The inside of a literal in double quotes: a quote or a backslash stands only behind a backslash,
    and no two backslashes stand side by side. -/
inductive Sealed : List Char → Prop
  | nil : Sealed []
  | char {c : Char} {cs : List Char} (hquote : c ≠ '"') (hback : c ≠ '\\') (h : Sealed cs) :
      Sealed (c :: cs)
  | escaped {c : Char} {cs : List Char} (hback : c ≠ '\\') (h : Sealed cs) :
      Sealed ('\\' :: c :: cs)

/-- Texts of names, punctuation, balanced brackets and literals.  No name starts like a branch
    word. -/
inductive Orderly : List Char → Prop
  | nil : Orderly []
  | word {c : Char} {cs : List Char} (hstart : c ≠ 'e')
      (hword : ∀ d ∈ c :: cs, Grammar.isWordChar d = true) : Orderly (c :: cs)
  | mark {c : Char} (hc : c ∈ [',', ':', ' ', ';']) : Orderly [c]
  | paren {u : List Char} (h : Orderly u) : Orderly ('(' :: (u ++ [')']))
  | square {u : List Char} (h : Orderly u) : Orderly ('[' :: (u ++ [']']))
  | literal {u : List Char} (h : Sealed u) : Orderly ('"' :: (u ++ ['"']))
  | append {u v : List Char} (hu : Orderly u) (hv : Orderly v) : Orderly (u ++ v)

/-! ### Characters of a line -/

variable {s : Scan} {back ahead u v : List Char} {c q : Char} {stack : List Frame} {frame : Frame}

/-- The state after a text that was written as it is. -/
def Scan.keep (s : Scan) (colonLast : Bool) (u : List Char) : Scan :=
  { s with colonLast, written := u.reverse ++ s.written }

theorem scanFrom_of_step {s' : Scan} (h : s.step back c ahead = .ok (some s')) :
    scanFrom s back (c :: ahead) = scanFrom s' (c :: back) ahead := by
  rw [scanFrom, h]
  rfl

/-- The characters that mean something to the layout. -/
def specials : List Char :=
  [blockMark, '#', '(', '[', '\x7b', ')', ']', '\x7d', '\'', '"', '<', '>']

theorem isInside_of_outside (h : literalOf s.stack = none) (c : Char) : s.isInside c = false := by
  rw [isInside_eq_false_iff, h]
  exact nofun

theorem step_plain (back ahead : List Char) (hs : literalOf s.stack = none) (hc : c ∉ specials) :
    ∃ b, s.step back c ahead = .ok (some (s.keep b [c])) := by
  simp only [specials, mem_cons, not_mem_nil, or_false, not_or] at hc
  obtain ⟨hbell, hhash, hopen₁, hopen₂, hopen₃, hclose₁, hclose₂, hclose₃, hsingle, hdouble,
      hlt, hgt⟩ := hc
  have hopener : Frame.ofOpener? c = none := by
    unfold Frame.ofOpener?
    split <;> first | contradiction | rfl
  have hcloser : isCloser c = false := by simp [isCloser, hclose₁, hclose₂, hclose₃]
  refine ⟨c == ':' || (s.colonLast && isBlank c), ?_⟩
  simp [Scan.step, isInside_of_outside hs, hbell, hhash, hopener, hcloser, hsingle, hdouble, hlt,
    hgt, pure, Except.pure, Scan.keep]

theorem step_opener (back ahead : List Char) (hs : literalOf s.stack = none)
    (hc : Frame.ofOpener? c = some frame) :
    ∃ b, s.step back c ahead = .ok (some { s.keep b [c] with stack := frame :: s.stack }) := by
  have hne : (c == blockMark) = false ∧ (c == '#') = false := by
    unfold Frame.ofOpener? at hc
    split at hc <;> first | decide | cases hc
  refine ⟨c == ':' || (s.colonLast && isBlank c), ?_⟩
  simp [Scan.step, isInside_of_outside hs, hne, hc, pure, Except.pure, Scan.keep]

theorem step_closer (back ahead : List Char) (hs : s.stack = frame :: stack)
    (hliteral : frame.quote? = none) (hc : frame.closer? = some c) :
    ∃ b, s.step back c ahead = .ok (some { s.keep b [c] with stack }) := by
  have hinside : s.isInside c = false := isInside_of_outside (by rw [hs]; exact hliteral) c
  refine ⟨c == ':' || (s.colonLast && isBlank c), ?_⟩
  cases frame <;> cases hc <;> cases hliteral <;>
    simp [Scan.step, hinside, isCloser, blockMark, Frame.ofOpener?, closeBracket, hs, Frame.closer?,
      bind, Except.bind, pure, Except.pure, Scan.keep]

/-! ### Literals -/

theorem step_quote (frame : Frame) (back ahead : List Char) (hframe : frame.quote? = some c)
    (hs : s.isInside c = false) :
    ∃ b, s.step back c ahead = .ok (some { s.keep b [c] with stack := s.quote frame back }) := by
  refine ⟨false, ?_⟩
  cases frame <;> cases hframe <;>
    simp [Scan.step, hs, blockMark, Frame.ofOpener?, isCloser, isBlank, wideBlanks, pure,
      Except.pure, Scan.keep] <;> rfl

theorem quote_of_outside (hs : literalOf s.stack = none) :
    s.quote .double back = .double :: s.stack := by
  rw [Scan.quote, if_neg]
  intro hhead
  rw [literalOf, beq_iff_eq.mp hhead] at hs
  cases hs

/-- In a literal, a quote is escaped by a backslash, before which no other backslash stands. -/
theorem quote_of_inside (hs : s.stack = frame :: stack) :
    s.quote frame back = if isEscaped back then s.stack else stack := by
  simp [Scan.quote, hs]

theorem isInside_quote (hs : s.stack = frame :: stack) (hframe : frame.quote? = some c) :
    s.isInside c = false := by
  rw [isInside_eq_false_iff, hs]
  exact fun q hq => Option.some_inj.mp (hframe.symm.trans hq)

theorem step_inside (hs : s.stack = frame :: stack) (hframe : frame.quote? = some q) (hc : c ≠ q) :
    s.step back c ahead = .ok (some (s.keep s.colonLast [c])) := by
  have hinside : s.isInside c = true := by
    rw [isInside_eq_true_iff, hs]
    exact ⟨q, hframe, hc⟩
  simp [Scan.step, hinside, pure, Except.pure, Scan.keep]

/-- The inside of a literal is kept, and does not end in a backslash. -/
theorem scanFrom_of_sealed (h : Sealed u) (ahead : List Char) (hs : s.stack = .double :: stack)
    (hback : back.head? ≠ some '\\') :
    (∃ b, scanFrom s back (u ++ ahead) = scanFrom (s.keep b u) (u.reverse ++ back) ahead) ∧
      (u.reverse ++ back).head? ≠ some '\\' := by
  induction h generalizing s back with
  | nil => exact ⟨⟨s.colonLast, rfl⟩, hback⟩
  | @char c u hquote hne _ ih =>
    obtain ⟨⟨b, hb⟩, hend⟩ := @ih (s.keep s.colonLast [c]) (c :: back) hs (by simpa using hne)
    rw [reverse_cons, append_assoc, singleton_append]
    refine ⟨⟨b, ?_⟩, hend⟩
    rw [cons_append, scanFrom_of_step (step_inside hs rfl hquote), hb]
    simp [Scan.keep]
  | @escaped c u hne _ ih =>
    have hfirst : s.step back '\\' (c :: (u ++ ahead)) = _ := step_inside hs rfl (by decide)
    -- the character behind the backslash is kept also if it is a quote
    obtain ⟨b₁, hsecond⟩ : ∃ b, (s.keep s.colonLast ['\\']).step ('\\' :: back) c (u ++ ahead) =
        .ok (some ((s.keep s.colonLast ['\\']).keep b [c])) := by
      by_cases hc : c = '"'
      · subst hc
        obtain ⟨b, hb⟩ := step_quote (s := s.keep s.colonLast ['\\']) .double ('\\' :: back)
          (u ++ ahead) rfl (isInside_quote hs rfl)
        refine ⟨b, hb.trans ?_⟩
        rw [quote_of_inside (s := s.keep s.colonLast ['\\']) hs, isEscaped_cons,
          if_pos (by simpa using hback)]
        rfl
      · exact ⟨_, step_inside hs rfl hc⟩
    obtain ⟨⟨b, hb⟩, hend⟩ := @ih ((s.keep s.colonLast ['\\']).keep b₁ [c]) (c :: '\\' :: back) hs
      (by simpa using hne)
    rw [show ('\\' :: c :: u).reverse ++ back = u.reverse ++ c :: '\\' :: back by simp]
    refine ⟨⟨b, ?_⟩, hend⟩
    rw [cons_append, cons_append, scanFrom_of_step hfirst, scanFrom_of_step hsecond, hb]
    simp [Scan.keep]

/-! ### Parts of a line -/

/-- As part of a line, the text is written as it is, and leaves the stack as it was. -/
def Passes (u : List Char) : Prop :=
  ∀ (s : Scan) (back ahead : List Char), literalOf s.stack = none →
    ∃ b, scanFrom s back (u ++ ahead) = scanFrom (s.keep b u) (u.reverse ++ back) ahead

theorem Passes.append (hu : Passes u) (hv : Passes v) : Passes (u ++ v) := by
  intro s back ahead hs
  obtain ⟨b, hb⟩ := hu s back (v ++ ahead) hs
  obtain ⟨b', hb'⟩ := hv (s.keep b u) (u.reverse ++ back) ahead hs
  refine ⟨b', ?_⟩
  rw [append_assoc, hb, hb']
  simp [Scan.keep]

theorem Passes.plain (hc : c ∉ specials) : Passes [c] := by
  intro s back ahead hs
  obtain ⟨b, hb⟩ := step_plain back ahead hs hc
  exact ⟨b, scanFrom_of_step hb⟩

theorem Passes.plains (h : ∀ c ∈ u, c ∉ specials) : Passes u := by
  induction u with
  | nil => exact fun s back ahead _ => ⟨s.colonLast, rfl⟩
  | cons c u ih =>
    obtain ⟨hc, hu⟩ := forall_mem_cons.mp h
    exact (Passes.plain hc).append (ih hu)

theorem Passes.bracket {opener closer : Char} (hu : Passes u)
    (hopener : Frame.ofOpener? opener = some frame)
    (hcloser : frame.closer? = some closer) : Passes (opener :: (u ++ [closer])) := by
  intro s back ahead hs
  have hframe : frame.quote? = none := by
    unfold Frame.ofOpener? at hopener
    split at hopener <;> cases hopener <;> rfl
  obtain ⟨b₁, h₁⟩ := step_opener back (u ++ ([closer] ++ ahead)) hs hopener
  obtain ⟨b₂, h₂⟩ := hu { s.keep b₁ [opener] with stack := frame :: s.stack } (opener :: back)
    ([closer] ++ ahead) hframe
  obtain ⟨b₃, h₃⟩ := step_closer
    (s := { s.keep b₁ [opener] with stack := frame :: s.stack }.keep b₂ u)
    (u.reverse ++ opener :: back) ahead rfl hframe hcloser
  refine ⟨b₃, ?_⟩
  rw [cons_append, append_assoc, scanFrom_of_step h₁, h₂, singleton_append,
    scanFrom_of_step h₃]
  simp [Scan.keep]

/-- A literal is passed over. -/
theorem Passes.literal (hu : Sealed u) : Passes ('"' :: (u ++ ['"'])) := by
  intro s back ahead hs
  obtain ⟨b₁, h₁⟩ := step_quote .double back (u ++ (['"'] ++ ahead)) rfl
    (isInside_of_outside hs '"')
  rw [quote_of_outside hs] at h₁
  obtain ⟨⟨b₂, h₂⟩, hend⟩ := scanFrom_of_sealed
    (s := { s.keep b₁ ['"'] with stack := .double :: s.stack }) hu (['"'] ++ ahead) rfl
    (by simp : ('"' :: back).head? ≠ some '\\')
  obtain ⟨b₃, h₃⟩ := step_quote
    (s := { s.keep b₁ ['"'] with stack := .double :: s.stack }.keep b₂ u)
    .double (u.reverse ++ '"' :: back) ahead rfl (isInside_quote rfl rfl)
  have hescaped : isEscaped (u.reverse ++ '"' :: back) = false := by
    generalize u.reverse ++ '"' :: back = back' at hend
    cases back' with
    | nil => rfl
    | cons d ds =>
      rw [isEscaped_cons]
      simp_all
  rw [quote_of_inside (show _ = Frame.double :: s.stack from rfl), hescaped] at h₃
  refine ⟨b₃, ?_⟩
  rw [cons_append, append_assoc, scanFrom_of_step h₁, h₂, singleton_append,
    scanFrom_of_step h₃]
  simp [Scan.keep]

theorem not_mem_specials_of_isWordChar (h : Grammar.isWordChar c = true) : c ∉ specials := by
  intro hc
  rw [(by decide : ∀ c ∈ specials, Grammar.isWordChar c = false) c hc] at h
  cases h

/-- **Orderly texts pass.** -/
theorem Orderly.passes (h : Orderly u) : Passes u := by
  induction h with
  | nil => exact .plains nofun
  | word _ hword => exact .plains fun c hc => not_mem_specials_of_isWordChar (hword c hc)
  | mark hc => exact .plain ((by decide : ∀ c ∈ [',', ':', ' ', ';'], c ∉ specials) _ hc)
  | paren _ ih => exact ih.bracket rfl rfl
  | square _ ih => exact ih.bracket rfl rfl
  | literal hu => exact .literal hu
  | append _ _ ihu ihv => exact ihu.append ihv

/-! ### A line of its own -/

theorem lines_of_not_mem (hne : u ≠ []) (h : '\n' ∉ u) : Text.lines u = [u] := by
  induction u with
  | nil => exact absurd rfl hne
  | cons c u ih =>
    rw [mem_cons, not_or] at h
    have hc : (c == '\n') = false := beq_eq_false_iff_ne.mpr (Ne.symm h.1)
    rw [Text.lines, hc, if_neg Bool.false_ne_true]
    cases u with
    | nil => rfl
    | cons d u => rw [ih (cons_ne_nil d u) h.2]

theorem stripRight_of_getLast? (h : ∀ c ∈ u.getLast?, isBlank c = false) : stripRight u = u := by
  rw [stripRight]
  cases hrev : u.reverse with
  | nil =>
    rw [reverse_eq_nil_iff.mp hrev]
    rfl
  | cons c cs =>
    have hlast : u.getLast? = some c := by
      rw [getLast?_eq_head?_reverse, hrev, head?_cons]
    rw [dropWhile_cons_of_neg (by simp [h c hlast]), ← hrev, reverse_reverse]

theorem scanLine_of_passes (h : Passes u) :
    ∃ b n, scanLine [.indent] 0 u =
      .ok (({ stack := [.indent], angles := 0 } : Scan).keep b u, n) := by
  obtain ⟨b, hscan⟩ := h { stack := [.indent], angles := 0 } [] [] rfl
  rw [append_nil] at hscan
  exact ⟨b, _, hscan⟩

/-- **The layout of a line that passes** is the line with a semicolon behind it. -/
theorem layout_of_passes (h : Passes u) (hnewline : '\n' ∉ u)
    (hhead : ∃ c cs, u = c :: cs ∧ isBlank c = false)
    (hlast : ∀ c ∈ u.getLast?, isBlank c = false) :
    ∃ l, layout u = .ok l ∧ l.blocks = [⟨0, '\n' :: (u ++ [';'])⟩, ⟨1, ['\n']⟩] := by
  obtain ⟨b, n, hscan⟩ := scanLine_of_passes h
  obtain ⟨c, cs, rfl, hc⟩ := hhead
  have hspace : (c == ' ') = false := by
    rw [beq_eq_false_iff_ne]
    rintro rfl
    exact absurd hc (by decide)
  have hstack : checkIndent {} 0 ((c :: cs).head? == some '#') = .ok [.indent] := by
    cases ((c :: cs).head? == some '#') <;> rfl
  have hfull : Progress.fullLine false {} 1 (c :: cs) = .ok {
      whole := '\n' :: (c :: cs ++ [';']),
      finished := [⟨0, '\n' :: (c :: cs ++ [';'])⟩], current := ⟨1, ['\n']⟩ } := by
    unfold Progress.fullLine
    rw [takeWhile_cons_of_neg (by simp [hspace]),
      dropWhile_cons_of_neg (by simp [hspace])]
    have hblank : allBlank (c :: cs) = false := by simp [allBlank, hc]
    simp only [length_nil, hstack, hscan, bind, Except.bind, pure, Except.pure, Scan.keep,
      append_nil, reverse_reverse, hblank]
    simp
  have hlines : Progress.lines false {} 1 [c :: cs] = .ok ({
      whole := '\n' :: (c :: cs ++ [';']),
      finished := [⟨0, '\n' :: (c :: cs ++ [';'])⟩], current := ⟨1, ['\n']⟩ }, 1) := by
    rw [Progress.lines, Progress.line, stripRight_of_getLast? hlast, hfull]
    rfl
  rw [layout, lines_of_not_mem (cons_ne_nil c cs) hnewline, hlines]
  exact ⟨_, rfl, rfl⟩

end Cppward.Layout
