import Cppward.Proofs.Layout.Literals
import Cppward.Proofs.Layout.Reaching
import Cppward.Source.Read

namespace Cppward.Layout

open Text List

/-!
# Where literals end

The grammar reads a literal from its quote on, and a backslash in it escapes the character behind
it.  The layout looks back from a quote, at two characters at most and not beyond its line.  Once
pairs of backslashes are put aside, both find the same literals.

* `quoting` — the scan with the pattern of the grammar (`untilQuote_of_quoting`).
* `Lone` — no two backslashes side by side; then looking back is enough (`quoting_eq`).
* `Comes.exists_block` — what is written where a character is met is the start of a block.
* `quoting_of_layout` — a character acts on the layout as the scan of its block says.
-/

variable {text u v word old base back ahead raw : List Char} {c q : Char} {s s' : Scan}
  {p p' : Progress} {l : Arrangement}

/-! ### The pattern of the grammar -/

/-- The effect of a character on the quote of the open literal, and on whether the next character is
    escaped. -/
def quotingStep : Option (Char × Bool) → Char → Option (Char × Bool)
  | none, c => if isQuote c then some (c, false) else none
  | some (q, true), _ => some (q, false)
  | some (q, false), c => if c == q then none else some (q, c == '\\')

def quoting (text : List Char) : Option (Char × Bool) := text.foldl quotingStep none

/-- Behind an opening quote, the grammar reads on to where the scan leaves the literal. -/
theorem untilQuote_of_quoting (h : u.foldl quotingStep (some (q, false)) = none) :
    ∃ inner rest, Grammar.untilQuote q u = some (inner, rest) ∧ u = inner ++ q :: rest ∧
      ∀ v, v <+: inner → ∃ escaped, v.foldl quotingStep (some (q, false)) = some (q, escaped) ∧
        (v = inner → escaped = false) := by
  fun_induction Grammar.untilQuote q u with
  | case1 => cases h
  | case2 c cs hc =>
    refine ⟨[], cs, rfl, by rw [beq_iff_eq.mp hc]; rfl, fun v hv => ⟨false, ?_, fun _ => rfl⟩⟩
    rw [prefix_nil.mp hv]
    rfl
  | case3 c hc hescape =>
    simp [quotingStep, hc, hescape] at h
  | case4 c hc hescape d ds ih =>
    rw [foldl_cons, foldl_cons, quotingStep, if_neg hc, hescape, quotingStep] at h
    obtain ⟨inner, rest, hread, rfl, hprefix⟩ := ih h
    refine ⟨c :: d :: inner, rest, by rw [hread]; rfl, rfl, fun v hv => ?_⟩
    match v, hv with
    | [], _ => exact ⟨false, rfl, nofun⟩
    | [x], hv =>
      obtain ⟨rfl, -⟩ := cons_prefix_cons.mp hv
      exact ⟨true, by simp [quotingStep, hc, hescape], nofun⟩
    | x :: y :: v, hv =>
      obtain ⟨rfl, hrest⟩ := cons_prefix_cons.mp hv
      obtain ⟨rfl, hinner⟩ := cons_prefix_cons.mp hrest
      obtain ⟨escaped, hescaped, hend⟩ := hprefix v hinner
      refine ⟨escaped, ?_, by simpa using hend⟩
      rw [foldl_cons, foldl_cons, quotingStep, if_neg hc, hescape, quotingStep, hescaped]
  | case5 c cs hc hescape ih =>
    have hstep : quotingStep (some (q, false)) c = some (q, false) := by
      simp [quotingStep, hc, hescape]
    rw [foldl_cons, hstep] at h
    obtain ⟨inner, rest, hread, rfl, hprefix⟩ := ih h
    refine ⟨c :: inner, rest, by rw [hread]; rfl, rfl, fun v hv => ?_⟩
    cases v with
    | nil => exact ⟨false, rfl, nofun⟩
    | cons x v =>
      obtain ⟨rfl, hinner⟩ := cons_prefix_cons.mp hv
      rw [foldl_cons, hstep]
      simpa using hprefix v hinner

/-! ### Lone backslashes -/

/-- No two backslashes stand side by side. -/
def Lone (text : List Char) : Prop := text.IsChain fun a b => a = '\\' → b ≠ '\\'

theorem lone_cons : Lone (c :: text) ↔ (c = '\\' → text.head? ≠ some '\\') ∧ Lone text := by
  rw [Lone, isChain_cons]
  refine and_congr_left fun _ => ⟨fun h hc hhead => h '\\' hhead hc rfl, fun h b hb hc hb' => ?_⟩
  exact h hc (hb' ▸ hb)

theorem Lone.append (hu : Lone u) (hv : Lone v)
    (h : u.getLast? ≠ some '\\' ∨ v.head? ≠ some '\\') : Lone (u ++ v) := by
  refine isChain_append.mpr ⟨hu, hv, fun x hx y hy hx' hy' => ?_⟩
  rcases h with h | h
  · exact h (hx' ▸ hx)
  · exact h (hy' ▸ hy)

theorem Lone.part (h : Lone text) (hu : u <:+: text) : Lone u :=
  List.IsChain.infix h hu

theorem lone_reverse : Lone text.reverse ↔ Lone text := by
  rw [Lone, isChain_reverse]
  exact ⟨fun h => h.imp fun _ _ h ha hb => h hb ha, fun h => h.imp fun _ _ h ha hb => h hb ha⟩

theorem lone_of_not_mem (h : '\\' ∉ text) : Lone text :=
  (pairwise_of_forall_mem_list fun a ha _ _ (ha' : a = '\\') => absurd (ha' ▸ ha) h).isChain

theorem head?_replaceAll (hword : '\\' ∉ word) (hne : word ≠ [])
    (h : (replaceAll old word text).head? = some '\\') : text.head? = some '\\' := by
  cases text with
  | nil => exact h
  | cons c text =>
    rw [replaceAll, replaceFrom] at h
    split at h
    · obtain ⟨d, word, rfl⟩ := exists_cons_of_ne_nil hne
      exact absurd (by simpa using h) (fun hd : d = '\\' => hword (hd ▸ mem_cons_self))
    · simpa using h

/-- Replacement keeps backslashes apart, and that of pairs puts them apart. -/
theorem lone_replaceFrom (hword : '\\' ∉ word) (hne : word ≠ [])
    (h : Lone text ∨ old = ['\\', '\\']) (skip : Nat) : Lone (replaceFrom old word skip text) := by
  induction text generalizing skip with
  | nil =>
    rw [replaceFrom]
    exact .nil
  | cons c text ih =>
    have hrest : Lone text ∨ old = ['\\', '\\'] := h.imp_left fun h => (lone_cons.mp h).2
    cases skip with
    | succ skip => exact ih hrest skip
    | zero =>
      rw [replaceFrom]
      split
      · refine (lone_of_not_mem hword).append (ih hrest _) (.inl fun hlast => ?_)
        exact hword (mem_of_getLast? hlast)
      · next hprefix =>
        refine lone_cons.mpr ⟨fun hc hhead => ?_, ih hrest 0⟩
        have htext := head?_replaceAll hword hne hhead
        rcases h with h | rfl
        · exact (lone_cons.mp h).1 hc htext
        · obtain ⟨rest, rfl⟩ := head?_eq_some_iff.mp htext
          simp [hc] at hprefix

theorem lone_hideEscapes (text : List Char) : Lone (Source.hideEscapes text) := by
  refine lone_replaceFrom (by decide) (by decide) (.inl ?_) 0
  refine lone_replaceFrom (by decide) (by decide) (.inl ?_) 0
  exact lone_replaceFrom (by decide) (by decide) (.inr rfl) 0

theorem back_marks (text : List Char) : (marks text).back = text.reverse := by
  induction text using List.reverseRecOn with
  | nil => rfl
  | append_singleton text c ih =>
    rw [marks_append, reverse_append, ← ih]
    show ((marks text).step c).back = _
    cases h : (marks text).literal <;> simp [Marks.step, h]

/-- Where backslashes stand apart, the character before a quote tells whether it is escaped. -/
theorem quoting_eq (h : Lone text) :
    quoting text = (marks text).literal.map fun q => (q, isEscaped text.reverse) := by
  induction text using List.reverseRecOn with
  | nil => rfl
  | append_singleton text c ih =>
    obtain ⟨hcons, hlone⟩ : (c = '\\' → text.reverse.head? ≠ some '\\') ∧ Lone text.reverse := by
      rwa [← lone_reverse, reverse_append, reverse_singleton, singleton_append, lone_cons] at h
    have hback : (marks text).back = text.reverse := back_marks text
    have hstep : quoting (text ++ [c]) = quotingStep (quoting text) c := foldl_append
    have hmarks : marks (text ++ [c]) = (marks text).step c := marks_append text [c]
    rw [hstep, hmarks, ih (lone_reverse.mp hlone), reverse_append, reverse_singleton,
      singleton_append, isEscaped_cons]
    cases hliteral : (marks text).literal with
    | none =>
      by_cases hquote : isQuote c = true
      · have hc : c ≠ '\\' := by
          rintro rfl
          cases hquote
        simp [quotingStep, Marks.step, hliteral, hquote, hc]
      · simp [quotingStep, Marks.step, hliteral, hquote]
    | some q =>
      cases hescaped : isEscaped text.reverse with
      | true =>
        -- the backslash before `c` is spent on it
        have hhead : text.reverse.head? = some '\\' := by
          cases hrev : text.reverse with
          | nil => simp [hrev, isEscaped] at hescaped
          | cons d rest =>
            rw [hrev, isEscaped_cons, Bool.and_eq_true, beq_iff_eq] at hescaped
            rw [hescaped.1]
            rfl
        simp [quotingStep, Marks.step, hliteral, hback, hescaped, hhead]
      | false =>
        by_cases hc : c = q
        · simp [quotingStep, Marks.step, hliteral, hback, hescaped, hc]
        · have hescape : (c == '\\' && text.reverse.head? != some '\\') = (c == '\\') := by
            by_cases hc' : c = '\\'
            · simpa [hc'] using hcons hc'
            · simp [hc']
          rw [hescape]
          simp [quotingStep, Marks.step, hliteral, hback, hescaped, hc]

/-! ### Blocks -/

/-- A character is written behind a backslash only if it is read behind one. -/
theorem Scan.Moves.lone (h : s.Moves back c s') (hline : Lone (c :: back)) (hs : Lone s.written)
    (hhead : s.written.head? = some '\\' → back.head? = some '\\') :
    Lone s'.written ∧ (s'.written.head? = some '\\' → (c :: back).head? = some '\\') := by
  have hcons : Lone (c :: s.written) :=
    lone_cons.mpr ⟨fun hc hwritten => (lone_cons.mp hline).1 hc (hhead hwritten), hs⟩
  obtain ⟨marks, hmarks, hwritten⟩ := h.written_eq
  rw [hwritten]
  rcases hmarks with rfl | rfl
  · exact ⟨hcons, id⟩
  · exact ⟨lone_cons.mpr ⟨fun h => absurd h (by decide), hcons⟩, fun h => absurd h (by simp [templateMark])⟩

theorem lone_of_scanFrom {line : List Char} {n : Nat} (hscan : scanFrom s back line = .ok (s', n))
    (hline : Lone (back.reverse ++ line)) (hs : Lone s.written)
    (hhead : s.written.head? = some '\\' → back.head? = some '\\') : Lone s'.written := by
  induction line generalizing s back with
  | nil =>
    cases hscan
    exact hs
  | cons c line ih =>
    have hline : Lone ((c :: back).reverse ++ line) := by simpa using hline
    rcases scanFrom_cases hscan with rfl | ⟨next, hmoves, hscan⟩
    · exact hs
    · obtain ⟨hnext, hhead⟩ := hmoves.lone (lone_reverse.mp (isChain_append.mp hline).1) hs hhead
      exact ih hscan hline hnext hhead

theorem lone_of_mem_lines (h : Lone text) (hraw : raw ∈ Text.lines text) : Lone raw := by
  have hall : Lone ((Text.lines text).flatMap fun raw => raw ++ ['\n']) := by
    rcases flatMap_lines text with htext | htext
    · rwa [htext]
    · rw [htext]
      exact h.append (lone_of_not_mem (by decide)) (.inr (by decide))
  refine hall.part ((prefix_append raw ['\n']).isInfix.trans ?_)
  exact infix_of_mem_flatten (mem_map_of_mem hraw)

/-- Text is added to the current block, and a new block may be begun. -/
theorem Progress.Adds.texts {scan : Scan} {added : List Char} (h : p.Adds scan added p') :
    ∃ (tail : List Char) (more : List (List Char)), (∀ t ∈ tail :: more, '\\' ∉ t) ∧
      p'.blocks.map Block.text = p.finished.reverse.map Block.text ++
        (p.current.text ++ (added ++ tail)) :: more := by
  cases h with
  | opens _ _ hadded =>
    exact ⟨[blockMark], [], by decide, by simp [Progress.blocks, hadded.finished, hadded.current]⟩
  | statement _ _ _ hadded =>
    exact ⟨[';'], [], by decide, by simp [Progress.blocks, hadded.finished, hadded.current]⟩
  | outermost _ _ hadded =>
    obtain ⟨n, hcurrent⟩ := hadded.current
    refine ⟨[';'], [replicate n '\n'], ?_, by simp [Progress.blocks, hadded.finished, hcurrent]⟩
    simp [mem_replicate]
  | part _ _ hadded =>
    exact ⟨[], [], by decide, by simp [Progress.blocks, hadded.finished, hadded.current]⟩

/-- Every line keeps the backslashes of the blocks apart. -/
theorem Progress.lone_line {number : Nat} (hp : ∀ t ∈ p.blocks.map Block.text, Lone t)
    (hraw : Lone raw) (h : p.line false number raw = .ok p') :
    ∀ t ∈ p'.blocks.map Block.text, Lone t := by
  rcases Progress.line_cases h with ⟨-, rfl⟩ | ⟨-, hfull⟩
  · exact hp
  obtain ⟨width, _, stack, line, scan, stop, hline, -, hscan, hadds⟩ := adds_of_fullLine hfull
  obtain ⟨tail, more, hmore, htexts⟩ := hadds.texts
  rw [forall_mem_cons] at hmore
  have hwritten : Lone scan.written := by
    refine lone_of_scanFrom hscan (hraw.part ?_) .nil nofun
    obtain ⟨blanks, hstrip, -⟩ := stripRight_append raw
    rw [hstrip, hline]
    exact infix_append ..
  have hmargin : '\\' ∉ '\n' :: replicate width ' ' := by simp [mem_replicate]
  have hadded : Lone ('\n' :: replicate width ' ' ++ scan.written.reverse ++ tail) := by
    refine ((lone_of_not_mem hmargin).append (lone_reverse.mpr hwritten) ?_).append
      (lone_of_not_mem hmore.1) ?_
    · exact .inl fun hlast => hmargin (mem_of_getLast? hlast)
    · exact .inr fun hhead => hmore.1 (mem_of_head? hhead)
  simp only [Progress.blocks, reverse_cons, map_append, map_cons, map_nil, forall_mem_append,
    forall_mem_singleton] at hp
  rw [htexts]
  simp only [forall_mem_append, forall_mem_cons]
  exact ⟨hp.1, hp.2.append hadded (.inr (by simp)), fun t ht => lone_of_not_mem (hmore.2 t ht)⟩

/-- What is the start of a block stays one. -/
theorem Progress.prefix_line {number : Nat} (hp : ∃ t ∈ p.blocks.map Block.text, u <+: t)
    (h : p.line false number raw = .ok p') : ∃ t ∈ p'.blocks.map Block.text, u <+: t := by
  rcases Progress.line_cases h with ⟨-, rfl⟩ | ⟨-, hfull⟩
  · exact hp
  obtain ⟨_, _, _, _, _, _, -, -, -, hadds⟩ := adds_of_fullLine hfull
  obtain ⟨tail, more, -, htexts⟩ := hadds.texts
  rw [htexts]
  simp only [Progress.blocks, reverse_cons, map_append, map_cons, map_nil] at hp
  obtain ⟨t, ht, hu⟩ := hp
  rcases mem_append.mp ht with ht | ht
  · exact ⟨t, mem_append_left _ ht, hu⟩
  · rw [mem_singleton.mp ht] at hu
    exact ⟨_, mem_append_right _ mem_cons_self, hu.trans (prefix_append ..)⟩

theorem layout_eq_ok (h : layout text = .ok l) :
    ∃ p last, Progress.lines false {} 1 (Text.lines text) = .ok (p, last) ∧
      p.stack.any (· != .indent) = false ∧ l.blocks = p.blocks := by
  unfold layout at h
  obtain ⟨⟨p, last⟩, hlines, h⟩ := Failing.bind_eq_ok.mp h
  dsimp only at h
  split at h
  · cases h
  · next hopen =>
    cases h
    exact ⟨p, last, hlines, Bool.not_eq_true _ ▸ hopen, rfl⟩

/-- In no block a literal is left open. -/
theorem literal_of_mem_blocks (h : layout text = .ok l) :
    ∀ b ∈ l.blocks, (marks b.text).literal = none := by
  obtain ⟨p, last, hlines, hopen, hblocks⟩ := layout_eq_ok h
  have hp : p.Sound := Progress.sound_start.lines hlines
  intro b hb
  rw [hblocks, Progress.blocks, mem_reverse] at hb
  rcases mem_cons.mp hb with rfl | hb
  · obtain ⟨back, htracks⟩ := hp.tracks
    rw [htracks.literal, htracks.nested.eq_outermost hopen]
    rfl
  · exact (hp.finished b hb).2.1

theorem lone_of_mem_blocks (h : layout text = .ok l) (htext : Lone text) :
    ∀ b ∈ l.blocks, Lone b.text := by
  obtain ⟨p, last, hlines, -, hblocks⟩ := layout_eq_ok h
  have hp : ∀ t ∈ p.blocks.map Block.text, Lone t := by
    refine Progress.lines_induction (P := fun p => ∀ t ∈ p.blocks.map Block.text, Lone t) ?_ hlines
      fun raw hraw p number p' hp hline => ?_
    · simp [Progress.blocks, Lone]
    · exact Progress.lone_line hp (lone_of_mem_lines htext hraw) hline
  intro b hb
  exact hp b.text (mem_map_of_mem (hblocks ▸ hb))

/-- A line is read to its end, and what is written of it stands at the start of a block. -/
theorem Comes.exists_block (h : Comes false text base s back ahead) (hl : layout text = .ok l) :
    ∃ scan stop, scanFrom s back ahead = .ok (scan, stop) ∧
      ∃ b ∈ l.blocks, base ++ scan.written.reverse <+: b.text := by
  induction h with
  | @line before after raw p last stack hlines hbefore hraw hindent =>
    obtain ⟨p', last', hp', -, hblocks⟩ := layout_eq_ok hl
    rw [hlines, Progress.lines_append, hbefore] at hp'
    obtain ⟨next, hnext, hafter⟩ := Failing.bind_eq_ok.mp (show (p.line _ _ raw >>= _) = _ from hp')
    rcases Progress.line_cases hnext with ⟨hblank, -⟩ | ⟨-, hfull⟩
    · exact absurd hblank hraw
    obtain ⟨stack', scan, stop, hstack, hscan, hadds⟩ := Progress.fullLine_eq_ok hfull
    obtain rfl : stack' = stack := Except.ok.inj (hstack.symm.trans hindent)
    obtain ⟨tail, more, -, htexts⟩ := hadds.texts
    have hstart : ∃ t ∈ next.blocks.map Block.text, p.current.text ++
        ('\n' :: replicate ((stripRight raw).takeWhile (· == ' ')).length ' ' ++
          scan.written.reverse) <+: t := by
      rw [htexts]
      refine ⟨_, mem_append_right _ mem_cons_self, ?_⟩
      rw [← append_assoc _ _ tail]
      exact prefix_append ..
    -- the lines after it only add to the blocks
    obtain ⟨t, ht, hu⟩ := Progress.lines_induction (P := fun p => ∃ t ∈ p.blocks.map Block.text, _ <+: t)
      hstart hafter fun raw _ p number p' hp hline => Progress.prefix_line hp hline
    obtain ⟨b, hb, rfl⟩ := mem_map.mp ht
    rw [← append_assoc] at hu
    exact ⟨scan, stop, hscan, b, hblocks ▸ hb, hu⟩
  | @next base back ahead c s s' _ hstep ih =>
    obtain ⟨scan, stop, hscan, hblock⟩ := ih
    rw [scanFrom, hstep] at hscan
    exact ⟨scan, stop, hscan, hblock⟩

/-! ### What a character does -/

/-- Outside literals every special character acts. -/
structure Acts (s : Scan) (c : Char) (ahead : List Char) (r : Except Fault (Option Scan)) :
    Prop where
  comment : c = '#' → r = .ok none
  quote : isQuote c = true → ∃ s' frame, r = .ok (some s') ∧ frame.quote? = some c ∧
    s'.stack = frame :: s.stack
  opening : ∀ frame, Frame.ofOpener? c = some frame → ∃ s', r = .ok (some s') ∧
    s'.stack = frame :: s.stack
  closing : isCloser c = true → r.map (Option.map Scan.stack) = (closeBracket s.stack c).map some
  colon : c = ':' → ∃ s', r = .ok (some s') ∧ s'.colonLast = true
  less : c = '<' → ∃ s', r = .ok (some s') ∧ s'.angles = s.angles + 1
  greater : c = '>' → ∃ s', r = .ok (some s') ∧ s'.angles = s.angles - 1 ∧
    s'.written = if s.angles ≠ 0 ∧ closesTemplate ahead then templateMark :: c :: s.written
      else c :: s.written

/-- A character acts as the scan says: inside a literal only its quote does anything but being
    written, and it ends the literal unless it is escaped. -/
def Follows (s : Scan) (c : Char) (ahead : List Char) (r : Except Fault (Option Scan)) :
    Option (Char × Bool) → Prop
  | none => Acts s c ahead r
  | some (q, escaped) =>
    if c = q then
      ∃ s', r = .ok (some s') ∧ s'.stack = (if escaped then s.stack else s.stack.tail) ∧
        s'.angles = s.angles ∧ s'.colonLast = false
    else r = .ok (some { s with written := c :: s.written })

theorem quote_of_literalOf {frame : Frame} (h : literalOf s.stack = none)
    (hframe : frame.quote? = some c) (back : List Char) : s.quote frame back = frame :: s.stack := by
  rw [Scan.quote, if_neg]
  intro hhead
  rw [literalOf, beq_iff_eq.mp hhead] at h
  cases hframe.symm.trans h

/-- Outside of literals, a step does to each character what `Acts` says. -/
theorem acts_step (h : literalOf s.stack = none) (back : List Char) (c : Char) (ahead : List Char) :
    Acts s c ahead (s.step back c ahead) := by
  have hinside : s.isInside c = false := isInside_eq_false_iff.mpr (by simp [h])
  rw [Scan.step, hinside, if_neg Bool.false_ne_true]
  constructor
  · rintro rfl
    rfl
  · intro hquote
    rw [isQuote, Bool.or_eq_true, beq_iff_eq, beq_iff_eq] at hquote
    rcases hquote with rfl | rfl
    · exact ⟨_, .single, rfl, rfl, quote_of_literalOf h rfl back⟩
    · exact ⟨_, .double, rfl, rfl, quote_of_literalOf h rfl back⟩
  · intro frame hframe
    unfold Frame.ofOpener? at hframe
    split at hframe <;> cases hframe <;> exact ⟨_, rfl, rfl⟩
  · intro hcloser
    simp only [isCloser, Bool.or_eq_true, beq_iff_eq] at hcloser
    rcases hcloser with (rfl | rfl) | rfl <;>
      show Except.map _ (closeBracket s.stack _ >>= _) = _ <;> cases closeBracket s.stack _ <;> rfl
  · rintro rfl
    exact ⟨_, rfl, rfl⟩
  · rintro rfl
    exact ⟨_, rfl, rfl⟩
  · rintro rfl
    obtain ⟨stack, angles, colonLast, written⟩ := s
    cases angles with
    | zero => exact ⟨_, rfl, rfl, rfl⟩
    | succ n =>
      cases closesTemplate ahead with
      | true => exact ⟨_, rfl, rfl, rfl⟩
      | false => exact ⟨_, rfl, rfl, rfl⟩

/-- Inside a literal, a character is written, and ends the literal if it is a quote of its kind that
    is not escaped. -/
theorem follows_step (h : literalOf s.stack = some q) (back : List Char) (c : Char)
    (ahead : List Char) : Follows s c ahead (s.step back c ahead) (some (q, isEscaped back)) := by
  rw [Follows]
  split
  · next hc =>
    subst hc
    have hinside : s.isInside c = false := isInside_eq_false_iff.mpr (by simp [h])
    rw [Scan.step, hinside, if_neg Bool.false_ne_true]
    obtain ⟨frame, hhead, hframe⟩ := Option.bind_eq_some_iff.mp h
    have hquote : s.quote frame back = if isEscaped back then s.stack else s.stack.tail := by
      rw [Scan.quote, hhead, if_pos (beq_self_eq_true _)]
    cases frame <;> cases hframe <;>
      exact ⟨_, rfl, hquote, rfl, Bool.and_false s.colonLast⟩
  · next hc =>
    have hinside : s.isInside c = true := isInside_eq_true_iff.mpr ⟨q, h, hc⟩
    rw [Scan.step, hinside, if_pos rfl]
    rfl

/-- Behind every quote outside literals, the grammar reads up to where the scan leaves the literal
    again. -/
def QuotedAlike (text : List Char) : Prop :=
  ∀ before q after, text = before ++ q :: after → quoting before = none → isQuote q = true →
    ∃ inner rest, Grammar.untilQuote q after = some (inner, rest) ∧ after = inner ++ q :: rest ∧
      quoting (before ++ q :: (inner ++ [q])) = none ∧
      ∀ u, u <+: inner → ∃ escaped, quoting (before ++ q :: u) = some (q, escaped)

/-- **Layout and grammar find the same literals.**  In every block the scan reads literals as the
    grammar does.  Every character is met behind the start of a block that is written before it, and
    acts on the layout as the scan of that start says. -/
theorem quoting_of_layout (text : List Char) (l : Arrangement)
    (h : layout (Source.hideEscapes text) = .ok l) :
    (∀ b ∈ l.blocks, QuotedAlike b.text) ∧
    ∀ base s back c ahead, Comes false (Source.hideEscapes text) base s back (c :: ahead) →
      Follows s c ahead (s.step back c ahead) (quoting (base ++ s.written.reverse)) ∧
      ∃ b ∈ l.blocks, base ++ s.written.reverse <+: b.text ∧
        (s.step back c ahead ≠ .ok none → base ++ (s.written.reverse ++ [c]) <+: b.text) := by
  have hlone := lone_of_mem_blocks h (lone_hideEscapes text)
  refine ⟨fun b hb before q after hb' hbefore hq => ?_, fun base s back c ahead hcomes => ?_⟩
  · have hend : (q :: after).foldl quotingStep (quoting before) = none := by
      have hnone : quoting b.text = none := by
        rw [quoting_eq (hlone b hb), literal_of_mem_blocks h b hb]
        rfl
      rwa [hb', quoting, foldl_append] at hnone
    have hopen : quotingStep none q = some (q, false) := by rw [quotingStep, if_pos hq]
    have hquoting (u : List Char) :
        quoting (before ++ q :: u) = u.foldl quotingStep (some (q, false)) := by
      rw [quoting, foldl_append, foldl_cons, ← quoting, hbefore, hopen]
    rw [foldl_cons, hbefore, hopen] at hend
    obtain ⟨inner, rest, hread, hafter, hprefix⟩ := untilQuote_of_quoting hend
    refine ⟨inner, rest, hread, hafter, ?_, fun u hu => ?_⟩
    · obtain ⟨escaped, hescaped, hlast⟩ := hprefix inner (prefix_refl inner)
      rw [hquoting, foldl_append, hescaped, hlast rfl]
      simp [quotingStep]
    · obtain ⟨escaped, hescaped, -⟩ := hprefix u hu
      exact ⟨escaped, (hquoting u).trans hescaped⟩
  · obtain ⟨scan, stop, hscan, b, hb, hprefix⟩ := hcomes.exists_block h
    have hstart {t : List Char} (ht : t <:+ scan.written) : base ++ t.reverse <+: b.text :=
      ((prefix_append_right_inj base).mpr ( reverse_prefix.mpr ht)).trans hprefix
    have htracks := hcomes.tracks
    have hw : base ++ s.written.reverse <+: b.text := hstart (suffix_of_scanFrom hscan)
    refine ⟨?_, b, hb, hw, fun hstep => ?_⟩
    · rw [quoting_eq ((hlone b hb).part hw.isInfix), htracks.literal]
      cases hliteral : literalOf s.stack with
      | none => exact acts_step hliteral back c ahead
      | some q =>
        have hends := (htracks.ends (by rw [htracks.literal, hliteral]; rfl)).1
        rw [back_marks] at hends
        rw [Option.map_some, ← hends]
        exact follows_step hliteral back c ahead
    · rw [scanFrom] at hscan
      obtain ⟨o, ho, hrest⟩ := Failing.bind_eq_ok.mp hscan
      cases o with
      | none => exact absurd ho hstep
      | some next =>
        obtain ⟨marks, -, hwritten⟩ := (Scan.moves_of_step ho).written_eq
        rw [← reverse_cons]
        refine hstart (List.IsSuffix.trans ?_ (suffix_of_scanFrom hrest))
        rw [hwritten]
        exact suffix_append ..

/-- A literal with an escaped quote before a bracket and a hash sign, and with a pair of backslashes
    at its end. -/
def escapedQuote : List Char := "'\\'(#\\\\' # '".toList

theorem quoting_of_escapedQuote : ∃ l, layout (Source.hideEscapes escapedQuote) = .ok l ∧
    (∀ b ∈ l.blocks, QuotedAlike b.text) ∧
    ∃ base s back c ahead, Comes false (Source.hideEscapes escapedQuote) base s back (c :: ahead) ∧
      base ++ s.written.reverse = "\n'\\".toList ∧ c = '\'' ∧
      Follows s c ahead (s.step back c ahead) (quoting (base ++ s.written.reverse)) := by
  obtain ⟨halike, hfollows⟩ := quoting_of_layout escapedQuote _ rfl
  have hline : Comes false (Source.hideEscapes escapedQuote) _ _ [] _ :=
    .line (show _ = [] ++ _ :: _ from rfl) rfl (by decide) rfl
  have hquote := (hline.next rfl).next rfl
  exact ⟨_, rfl, halike, _, _, _, _, _, hquote, rfl, rfl, (hfollows _ _ _ _ _ hquote).1⟩

end Cppward.Layout
