import Cppward.Grammar.Expression
import Cppward.Proofs.Grammar.Branches

namespace Cppward.Grammar

open Text List

/-!
# Reading forward

What the readers do with a text of which it is known how it starts.

* `Reads`, `Refuses` — a reader takes a text up to some rest, or fails; in both cases without
  meeting the operator that is not allowed.  One lemma for each combinator.  `ReadsAt` is about a
  single cursor: what stands before a word decides whether it is one.
* `ReadsAt.readLevels`, `Refuses.readLevels` — where no operators are, all levels read what the
  tightest one reads.
* `ReadsAt.joined`, `ReadsAt.signed` — the level of an operator between or before operands.
-/

variable {s op : String} {w u : List Char} {quote : Char} {o : Operator} {os : List Operator}
variable {α β : Type} {p q : Reader α} {f : α → Reader β} {P : α → Prop} {Q : β → Prop}
  {c : Cursor} {text mid rest : List Char}

/-- At the cursor the reader takes the text up to `rest`, and gives a value with the property. -/
abbrev ReadsAt (p : Reader α) (c : Cursor) (P : α → Prop) (rest : List Char) : Prop :=
  ∃ a c', p c = ⟨some (a, c'), false⟩ ∧ P a ∧ c'.rest = rest

/-- The reader takes the text up to `rest`, and gives a value with the property. -/
def Reads (p : Reader α) (text : List Char) (P : α → Prop) (rest : List Char) : Prop :=
  ∀ c : Cursor, c.rest = text → ReadsAt p c P rest

def Refuses (p : Reader α) (text : List Char) : Prop :=
  ∀ c : Cursor, c.rest = text → p c = ⟨none, false⟩

/-! ### Combinators -/

theorem ReadsAt.mono {c : Cursor} {P' : α → Prop} (h : ReadsAt p c P rest)
    (hP : ∀ a, P a → P' a) : ReadsAt p c P' rest := by
  obtain ⟨a, c', ha, hPa, hrest⟩ := h
  exact ⟨a, c', ha, hP a hPa, hrest⟩

theorem Reads.mono {P' : α → Prop} (h : Reads p text P rest) (hP : ∀ a, P a → P' a) :
    Reads p text P' rest := fun c hc => (h c hc).mono hP

theorem Reads.pure {a : α} (h : P a) : Reads (pure a) text P text := fun c hc => ⟨a, c, rfl, h, hc⟩

theorem ReadsAt.bind (hp : ReadsAt p c P mid) (hf : ∀ a, P a → Reads (f a) mid Q rest) :
    ReadsAt (p >>= f) c Q rest := by
  obtain ⟨a, c₁, ha, hPa, hmid⟩ := hp
  obtain ⟨b, c₂, hb, hQb, hrest⟩ := hf a hPa c₁ hmid
  refine ⟨b, c₂, ?_, hQb, hrest⟩
  change Reader.bind p f c = _
  rw [Reader.bind, ha]
  simp only [hb, Bool.or_self]

theorem Reads.bind (hp : Reads p text P mid) (hf : ∀ a, P a → Reads (f a) mid Q rest) :
    Reads (p >>= f) text Q rest := fun c hc => (hp c hc).bind hf

theorem readsAt_offset_bind {g : Nat → Reader β} (h : ∀ loc, ReadsAt (g loc) c Q rest) :
    ReadsAt (Reader.offset >>= g) c Q rest := by
  obtain ⟨b, c', hb, hQ, hrest⟩ := h c.skipGaps.pos
  refine ⟨b, c', ?_, hQ, hrest⟩
  change Reader.bind Reader.offset g c = _
  simp only [Reader.bind, Reader.offset, hb, Bool.or_self]

theorem Reads.bind_refuses (hp : Reads p text P mid) (hf : ∀ a, P a → Refuses (f a) mid) :
    Refuses (p >>= f) text := by
  intro c hc
  obtain ⟨a, c₁, ha, hPa, hmid⟩ := hp c hc
  change Reader.bind p f c = _
  rw [Reader.bind, ha]
  simp only [hf a hPa c₁ hmid, Bool.or_self]

theorem Refuses.bind (hp : Refuses p text) : Refuses (p >>= f) text := by
  intro c hc
  change Reader.bind p f c = _
  rw [Reader.bind, hp c hc]

theorem ReadsAt.orElse (hp : ReadsAt p c P rest) : ReadsAt (p <|> q) c P rest := by
  obtain ⟨a, c₁, ha, hPa, hrest⟩ := hp
  refine ⟨a, c₁, ?_, hPa, hrest⟩
  change Reader.orElse p (fun _ => q) c = _
  rw [Reader.orElse, ha]

theorem Reads.orElse (hp : Reads p text P rest) : Reads (p <|> q) text P rest :=
  fun c hc => (hp c hc).orElse

theorem Refuses.orElse_readsAt (hp : Refuses p c.rest) (hq : ReadsAt q c P rest) :
    ReadsAt (p <|> q) c P rest := by
  obtain ⟨a, c₁, ha, hPa, hrest⟩ := hq
  refine ⟨a, c₁, ?_, hPa, hrest⟩
  change Reader.orElse p (fun _ => q) c = _
  rw [Reader.orElse, hp c rfl]
  simp only [ha, Bool.or_self]

theorem Refuses.orElse_reads (hp : Refuses p text) (hq : Reads q text P rest) :
    Reads (p <|> q) text P rest := fun c hc => (hc ▸ hp).orElse_readsAt (hq c hc)

theorem Refuses.orElse (hp : Refuses p text) (hq : Refuses q text) : Refuses (p <|> q) text := by
  intro c hc
  change Reader.orElse p (fun _ => q) c = _
  rw [Reader.orElse, hp c hc]
  simp only [hq c hc, Bool.or_self]

theorem Reads.attempt (hp : Reads p text P rest) :
    Reads (Reader.attempt p) text (fun o => ∃ a, o = some a ∧ P a) rest := by
  intro c hc
  obtain ⟨a, c₁, ha, hPa, hrest⟩ := hp c hc
  refine ⟨some a, c₁, ?_, ⟨a, rfl, hPa⟩, hrest⟩
  rw [Reader.attempt, ha]

theorem Refuses.attempt (hp : Refuses p text) : Reads (Reader.attempt p) text (· = none) text := by
  intro c hc
  refine ⟨none, c, ?_, rfl, hc⟩
  rw [Reader.attempt, hp c hc]

theorem ReadsAt.settle (hp : ReadsAt p c P rest) :
    ReadsAt (Reader.settle p) c (fun o => ∃ a, o = some a ∧ P a) rest := by
  obtain ⟨a, c₁, ha, hPa, hrest⟩ := hp
  refine ⟨some a, c₁, ?_, ⟨a, rfl, hPa⟩, hrest⟩
  rw [Reader.settle, ha]

theorem Reads.settle (hp : Reads p text P rest) :
    Reads (Reader.settle p) text (fun o => ∃ a, o = some a ∧ P a) rest :=
  fun c hc => (hp c hc).settle

theorem Refuses.settle (hp : Refuses p text) : Reads (Reader.settle p) text (· = none) text := by
  intro c hc
  refine ⟨none, c, ?_, rfl, hc⟩
  rw [Reader.settle, hp c hc]

/-- After a failure that leaves no trace, reading goes on at the same cursor. -/
theorem Refuses.settle_bind {g : Option α → Reader β} (hp : Refuses p c.rest)
    (h : ReadsAt (g none) c Q rest) : ReadsAt (Reader.settle p >>= g) c Q rest := by
  obtain ⟨b, c', hb, hQ, hrest⟩ := h
  refine ⟨b, c', ?_, hQ, hrest⟩
  change Reader.bind (Reader.settle p) g c = _
  simp only [Reader.bind, Reader.settle, hp c rfl, hb, Bool.or_self]

/-- Values in a row are read up to `rest`, if as many are allowed as there are characters. -/
def ReadsMany (p : Reader α) (text : List Char) (P : List α → Prop) (rest : List Char) : Prop :=
  ∀ n, text.length ≤ n → Reads (Reader.manyUpTo p n) text P rest

theorem ReadsMany.mono {R R' : List α → Prop} (h : ReadsMany p text R rest)
    (hR : ∀ as, R as → R' as) :
    ReadsMany p text R' rest :=
  fun n hn => (h n hn).mono hR

theorem ReadsMany.many {P : List α → Prop} (h : ReadsMany p text P rest) :
    Reads (Reader.many p) text P rest :=
  fun c hc => h c.rest.length (by rw [hc]) c hc

theorem Refuses.readsMany (hp : Refuses p text) : ReadsMany p text (· = []) text := by
  intro n _
  cases n with
  | zero => exact .pure rfl
  | succ n =>
    refine hp.attempt.bind fun o ho => ?_
    subst ho
    exact .pure rfl

theorem Reads.readsMany {R : List α → Prop} (hp : Reads p text P mid)
    (hmid : mid.length < text.length)
    (hmore : ReadsMany p mid R rest) :
    ReadsMany p text (fun as => ∃ a as', as = a :: as' ∧ P a ∧ R as') rest := by
  intro n hn
  obtain ⟨n, rfl⟩ : ∃ k, n = k + 1 := ⟨n - 1, by omega⟩
  refine hp.attempt.bind fun o ho => ?_
  obtain ⟨a, rfl, ha⟩ := ho
  exact (hmore n (by omega)).bind fun as has => .pure ⟨a, as, rfl, ha, has⟩

theorem ReadsAt.many1 (hp : ReadsAt p c P rest) (hrest : Refuses p rest) :
    ReadsAt (Reader.many1 p) c (fun as => ∃ a, as = [a] ∧ P a) rest := by
  refine hp.bind fun a ha => hrest.readsMany.many.bind fun as has => ?_
  subst has
  exact .pure ⟨a, rfl, ha⟩

/-! ### Tokens -/

theorem reads_offset : Reads Reader.offset text (fun _ => True) text :=
  fun c hc => ⟨_, c, rfl, trivial, hc⟩

theorem reads_gaps : Reads Reader.gaps text (fun _ => True) (text.dropWhile isGap) := by
  intro c hc
  obtain ⟨gaps, hrest, -, heq⟩ := c.skipGaps_eq
  refine ⟨(), c.skipGaps, rfl, trivial, ?_⟩
  rw [heq, Cursor.advance_eq hrest, hc]

theorem reads_exactly (s rest : List Char) :
    Reads (Reader.exactly s) (s ++ rest) (fun _ => True) rest := by
  intro c hc
  have hprefix : s.isPrefixOf c.rest = true := by
    rw [List.isPrefixOf_iff_prefix, hc]
    exact prefix_append s rest
  refine ⟨(), c.advance s.length, ?_, trivial, ?_⟩
  · rw [Reader.exactly, if_pos hprefix]
  · rw [Cursor.advance_eq hc]

theorem refuses_exactly {s : List Char} (h : s.isPrefixOf text = false) :
    Refuses (Reader.exactly s) text := by
  intro c hc
  rw [Reader.exactly, hc, h, if_neg Bool.false_ne_true]

theorem reads_symbol (h : text.dropWhile isGap = s.toList ++ rest) :
    Reads (Reader.symbol s) text (fun _ => True) rest :=
  reads_gaps.bind fun _ _ => h ▸ reads_exactly s.toList rest

theorem refuses_symbol (h : s.toList.isPrefixOf (text.dropWhile isGap) = false) :
    Refuses (Reader.symbol s) text :=
  reads_gaps.bind_refuses fun _ _ => refuses_exactly h

theorem isAtWord_eq_false (h : w.isPrefixOf text = false) (c : Cursor)
    (hc : c.rest = text) : c.isAtWord w = false := by
  rw [Cursor.isAtWord, hc, h, Bool.false_and, Bool.false_and]

/-- A word is no other word: where a longer word stands, or another one, it is refused. -/
theorem isAtWord_of_ne (hu : ∀ d ∈ u, isWordChar d = true)
    (hw : ∀ d ∈ w, isWordChar d = true) (hne : u ≠ w)
    (hrest : ∀ d ∈ rest.head?, isWordChar d = false) (c : Cursor) (hc : c.rest = u ++ rest) :
    c.isAtWord w = false := by
  rw [Cursor.isAtWord, hc, Bool.and_eq_false_iff, Bool.and_eq_false_iff]
  by_cases hprefix : w <+: u ++ rest
  · -- the word is a proper start of the longer one, so that another character of it follows
    refine .inl (.inr ?_)
    have hstart : w <+: u := by
      rcases prefix_or_prefix_of_prefix hprefix (prefix_append u rest) with h | ⟨v, rfl⟩
      · exact h
      cases v with
      | nil => exact absurd (append_nil u).symm hne
      | cons d v =>
        obtain ⟨tail, htail⟩ := (prefix_append_right_inj u).mp hprefix
        have hd := hrest d (by rw [← htail]; rfl)
        rw [hw d (by simp)] at hd
        cases hd
    obtain ⟨v, rfl⟩ := hstart
    cases v with
    | nil => exact absurd (append_nil w) hne
    | cons d v =>
      rw [append_assoc, drop_left]
      simp [hu d (by simp)]
  · exact .inl (.inl (Bool.eq_false_iff.mpr fun h => hprefix (List.isPrefixOf_iff_prefix.mp h)))

theorem refuses_word (h : s.toList.isPrefixOf (text.dropWhile isGap) = false) :
    Refuses (Reader.word s) text := by
  refine reads_gaps.bind_refuses fun _ _ c hc => ?_
  rw [Reader.wordHere, isAtWord_eq_false h c hc, if_neg Bool.false_ne_true]

theorem refuses_word_of_ne (htext : text.dropWhile isGap = u ++ rest)
    (hu : ∀ d ∈ u, isWordChar d = true) (hs : ∀ d ∈ s.toList, isWordChar d = true)
    (hne : u ≠ s.toList) (hrest : ∀ d ∈ rest.head?, isWordChar d = false) :
    Refuses (Reader.word s) text := by
  refine reads_gaps.bind_refuses fun _ _ c hc => ?_
  rw [Reader.wordHere, isAtWord_of_ne hu hs hne hrest c (hc.trans htext),
    if_neg Bool.false_ne_true]

/-- The first character behind the gaps. -/
def lead (text : List Char) : Option Char := (text.dropWhile isGap).head?

theorem refuses_symbol_of_lead {x : Char} {xs : List Char} (hs : s.toList = x :: xs)
    (h : x ∉ lead text) : Refuses (Reader.symbol s) text := by
  refine refuses_symbol ?_
  rw [hs]
  cases htext : text.dropWhile isGap with
  | nil => rfl
  | cons y ys =>
    rw [lead, htext, head?_cons, Option.mem_some_iff] at h
    rw [List.isPrefixOf, beq_eq_false_iff_ne.mpr (Ne.symm h), Bool.false_and]

/-! ### Names and literals -/

theorem isWordChar_of_isNameChar {x : Char} (h : isNameChar x = true) : isWordChar x = true := by
  rw [isWordChar, Bool.or_eq_true]
  exact .inl h

theorem isNameChar_of_isWordChar {x : Char} (h : isWordChar x = false) : isNameChar x = false := by
  rw [isWordChar, Bool.or_eq_false_iff] at h
  exact h.1

theorem isWordChar_of_isNameStart {x : Char} (h : isNameStart x = true) : isWordChar x = true := by
  refine isWordChar_of_isNameChar ?_
  rw [isNameStart, Bool.or_eq_true] at h
  rw [isNameChar, Char.isAlphanum, Bool.or_eq_true, Bool.or_eq_true]
  exact h.imp .inl id

theorem refuses_identHere (h : ∀ x ∈ text.head?, isNameStart x = false) :
    Refuses Reader.identHere text := by
  intro c hc
  unfold Reader.identHere
  split
  · rfl
  split
  · rfl
  · next x cs hrest =>
    rw [hc] at hrest
    rw [hrest] at h
    rw [h x rfl, if_neg Bool.false_ne_true]

/-- A word that is not reserved is read as a name. -/
theorem reads_identHere {x : Char} {cs : List Char} (hx : isNameStart x = true)
    (hcs : ∀ d ∈ cs, isNameChar d = true) (hrest : ∀ d ∈ rest.head?, isWordChar d = false)
    (hword : ∀ w ∈ reservedWords, w.toList ≠ x :: cs) :
    Reads Reader.identHere (x :: (cs ++ rest)) (·.name = String.ofList (x :: cs)) rest := by
  intro c hc
  have hchars : ∀ d ∈ x :: cs, isWordChar d = true :=
    forall_mem_cons.mpr ⟨isWordChar_of_isNameStart hx, fun d hd =>
      isWordChar_of_isNameChar (hcs d hd)⟩
  have hreserved : (reservedWords.any fun w => c.isAtWord w.toList) = false := by
    rw [any_eq_false]
    intro w hw
    have hletters := (by decide : ∀ w ∈ reservedWords, ∀ d ∈ w.toList, isWordChar d = true) w hw
    rw [isAtWord_of_ne hchars hletters (Ne.symm (hword w hw)) hrest c hc]
    exact Bool.false_ne_true
  have hrest : ∀ d ∈ rest.head?, isNameChar d = false := fun d hd =>
    isNameChar_of_isWordChar (hrest d hd)
  have htaken : (cs ++ rest).takeWhile isNameChar = cs := by
    rw [takeWhile_append_of_pos hcs]
    cases rest with
    | nil => exact append_nil cs
    | cons d rest =>
      rw [takeWhile_cons_of_neg (by rw [hrest d rfl]; exact Bool.false_ne_true),
        append_nil]
  refine ⟨⟨String.ofList (x :: cs), c.pos⟩, c.advance (x :: cs).length, ?_, rfl, ?_⟩
  · rw [Reader.identHere, hreserved, if_neg Bool.false_ne_true, hc]
    simp only [hx, if_true, htaken]
  · rw [Cursor.advance_eq (u := x :: cs) hc]

theorem refuses_quoted (h : quote ∉ text.head?) : Refuses (Reader.quoted quote) text := by
  intro c hc
  unfold Reader.quoted
  split
  · rfl
  · next x cs hrest =>
    rw [hc] at hrest
    rw [hrest, head?_cons, Option.mem_some_iff] at h
    rw [if_neg]
    rwa [beq_iff_eq]

theorem reads_quoted (h : Layout.Sealed u) (rest : List Char) :
    Reads (Reader.quoted '"') ('"' :: (u ++ '"' :: rest)) (· = u) rest := by
  intro c hc
  refine ⟨u, c.advance (u.length + 2), quoted_of_sealed h hc, rfl, ?_⟩
  have hwhole : c.rest = ('"' :: (u ++ ['"'])) ++ rest := by simp [hc]
  have hadvance := Cursor.advance_eq hwhole
  rw [show ('"' :: (u ++ ['"'])).length = u.length + 2 by simp] at hadvance
  rw [hadvance]

theorem reads_literal (h : Layout.Sealed u)
    (htext : text.dropWhile isGap = '"' :: (u ++ '"' :: rest))
    (hrest : ∀ x ∈ rest.head?, isNameStart x = false) : Reads (Reader.literal '"') text
      (fun n => ∃ loc, n = Node.make (.str (literalValue u) none none) none [] loc) rest := by
  refine reads_offset.bind fun loc _ => reads_gaps.bind fun _ _ => ?_
  have hlead : Refuses Reader.identHere (text.dropWhile isGap) := by
    refine refuses_identHere ?_
    rw [htext]
    rintro _ ⟨⟩
    decide
  refine hlead.attempt.bind fun _ h₁ => ?_
  rw [htext]
  refine (reads_quoted h rest).bind fun _ h₂ =>
    (refuses_identHere hrest).attempt.bind fun _ h₃ => ?_
  subst h₁ h₂ h₃
  exact .pure ⟨loc, rfl⟩

theorem refuses_literal (h : ∀ x ∈ lead text, isNameStart x = false ∧ x ≠ quote) :
    Refuses (Reader.literal quote) text := by
  refine reads_offset.bind_refuses fun _ _ => reads_gaps.bind_refuses fun _ _ => ?_
  refine (refuses_identHere fun x hx => (h x hx).1).attempt.bind_refuses fun _ _ => ?_
  exact (refuses_quoted fun hx => (h quote hx).2 rfl).bind

section Ident

variable {x : Char} {cs : List Char} (htext : text.dropWhile isGap = x :: (cs ++ rest))
  (hx : isNameStart x = true) (hcs : ∀ d ∈ cs, isNameChar d = true)
  (hrest : ∀ d ∈ rest.head?, isWordChar d = false)
  (hword : ∀ w ∈ reservedWords, w.toList ≠ x :: cs)

include htext hx hcs hrest hword

/-- A name without a quote behind it is no literal. -/
theorem refuses_literal_of_ident (hquote : quote ∉ rest.head?) :
    Refuses (Reader.literal quote) text := by
  refine reads_offset.bind_refuses fun _ _ => reads_gaps.bind_refuses fun _ _ => ?_
  rw [htext]
  exact (reads_identHere hx hcs hrest hword).attempt.bind_refuses fun _ _ =>
    (refuses_quoted hquote).bind

theorem reads_ident :
    Reads Reader.ident text (fun n => ∃ loc, n = Node.ident (String.ofList (x :: cs)) loc)
      rest := by
  refine reads_gaps.bind fun _ _ => ?_
  rw [htext]
  refine (reads_identHere hx hcs hrest hword).bind fun a ha => .pure ⟨a.loc, ?_⟩
  rw [ha]

end Ident

theorem refuses_ident (h : ∀ x ∈ lead text, isNameStart x = false) : Refuses Reader.ident text :=
  reads_gaps.bind_refuses fun _ _ => (refuses_identHere h).bind

theorem refuses_run1 {p : Char → Bool} (h : ∀ x ∈ text.head?, p x = false) :
    Refuses (Reader.run1 p) text := by
  intro c hc
  have hnone : text.takeWhile p = [] := by
    cases text with
    | nil => rfl
    | cons x cs => exact takeWhile_cons_of_neg (by rw [h x rfl]; exact Bool.false_ne_true)
  rw [Reader.run1, hc, hnone]
  rfl

/-! ### Operators -/

/-- None of the operators stands at the start of the text, behind the gaps. -/
def Bars (os : List Operator) (text : List Char) : Prop :=
  ∀ o ∈ os, Refuses (Reader.operator o) text

/-- A text with this first character may start with the operator. -/
def Operator.mayStart (x : Option Char) (o : Operator) : Bool :=
  (o.text.toList.take 1).isPrefixOf x.toList

theorem refuses_operator (h : o.text.toList.isPrefixOf (text.dropWhile isGap) = false) :
    Refuses (Reader.operator o) text := by
  cases o with
  | symbol s => exact (refuses_symbol h).bind
  | word s => exact (refuses_word h).bind

theorem bars_of_lead (h : os.any (Operator.mayStart (lead text)) = false) : Bars os text := by
  intro o ho
  refine refuses_operator ?_
  have hstart := Bool.eq_false_iff.mpr (any_eq_false.mp h o ho)
  rw [Operator.mayStart, lead] at hstart
  cases hop : o.text.toList with
  | nil =>
    rw [hop] at hstart
    cases hstart
  | cons y ys =>
    rw [hop] at hstart
    cases htext : text.dropWhile isGap with
    | nil => rfl
    | cons x xs =>
      rw [htext] at hstart
      simp only [take_succ_cons, take_zero, head?_cons, Option.toList_some,
        List.isPrefixOf, Bool.and_true] at hstart
      rw [List.isPrefixOf, hstart, Bool.false_and]

theorem Bars.subset {os' : List Operator} (h : Bars os text) (hos : os' ⊆ os) : Bars os' text :=
  fun o ho => h o (hos ho)

theorem refuses_firstOf (h : Bars os text) : Refuses (Reader.firstOf os) text := by
  induction os with
  | nil => exact fun _ _ => rfl
  | cons o os ih =>
    obtain ⟨ho, hos⟩ := forall_mem_cons.mp h
    exact ho.orElse (ih hos)

/-- An operator of a list is read where no other one of the list stands. -/
theorem readsAt_firstOf {P : String → Prop} (ho : o ∈ os) (h : ReadsAt (Reader.operator o) c P rest)
    (hothers : ∀ o' ∈ os, o' ≠ o → Refuses (Reader.operator o') c.rest) :
    ReadsAt (Reader.firstOf os) c P rest := by
  induction os with
  | nil => cases ho
  | cons o' os ih =>
    obtain ⟨ho', hos⟩ := forall_mem_cons.mp hothers
    by_cases heq : o' = o
    · exact (heq ▸ h).orElse
    · have hmem : o ∈ os := (mem_cons.mp ho).resolve_left (Ne.symm heq)
      exact (ho' heq).orElse_readsAt (ih hmem hos)

/-- No character of a word stands before the next token. -/
def Cursor.IsClear (c : Cursor) : Prop := c.skipGaps.prev.any isWordChar = false

theorem isWordChar_of_isGap {x : Char} (hx : isGap x = true) : isWordChar x = false := by
  simp only [isGap, Bool.or_eq_true, beq_iff_eq] at hx
  rcases hx with ((rfl | rfl) | rfl) | rfl <;> rfl

theorem Cursor.isClear_of_prev (h : c.prev = none) : c.IsClear := by
  obtain ⟨gaps, hrest, hgaps, heq⟩ := c.skipGaps_eq
  rw [Cursor.IsClear, heq, Cursor.advance_eq hrest, h, Option.or_none]
  cases hlast : gaps.getLast? with
  | none => rfl
  | some x => exact isWordChar_of_isGap (hgaps x (mem_of_getLast? hlast))

theorem Cursor.isClear_of_gap {x : Char} (hx : isGap x = true) (hc : c.rest = x :: text) :
    c.IsClear := by
  obtain ⟨gaps, hrest, hgaps, heq⟩ := c.skipGaps_eq
  have hne : gaps ≠ [] := by
    rintro rfl
    rw [hc, dropWhile_cons_of_pos hx, nil_append] at hrest
    have hlength : (text.dropWhile isGap).length ≤ text.length :=
      (dropWhile_suffix isGap).length_le
    rw [← hrest, length_cons] at hlength
    omega
  rw [Cursor.IsClear, heq, Cursor.advance_eq hrest, getLast?_eq_some_getLast hne]
  exact isWordChar_of_isGap (hgaps _ (getLast_mem hne))

section Levels

variable {level : Level} {levels : List Level} {last : Reader Node} {P Q : Node → Prop}

theorem ReadsAt.leftChain (h : ReadsAt last c P rest) (hend : Bars level.operators rest) :
    ReadsAt (Reader.leftChain level last) c P rest := by
  refine readsAt_offset_bind fun loc => h.bind fun first hfirst => ?_
  refine (refuses_firstOf hend).bind.settle.bind fun o ho => ?_
  subst ho
  exact .pure hfirst

theorem ReadsAt.rightChain (h : ReadsAt last c P rest) (hend : Bars level.operators rest)
    (n : Nat) : ReadsAt (Reader.rightChain level last n) c P rest := by
  cases n with
  | zero => exact h
  | succ n =>
    refine readsAt_offset_bind fun loc => h.bind fun first hfirst => ?_
    refine (refuses_firstOf hend).bind.settle.bind fun o ho => ?_
    subst ho
    exact .pure hfirst

theorem ReadsAt.beforeChain (h : ReadsAt last c P rest) (hstart : Bars level.operators c.rest)
    (n : Nat) : ReadsAt (Reader.beforeChain level last n) c P rest := by
  cases n with
  | zero => exact h
  | succ n =>
    exact readsAt_offset_bind fun loc => (refuses_firstOf hstart).bind.settle_bind h

theorem ReadsAt.afterChain (h : ReadsAt last c P rest) (hend : Bars level.operators rest) :
    ReadsAt (Reader.afterChain level last) c P rest := by
  refine readsAt_offset_bind fun loc => h.bind fun first hfirst => ?_
  refine (refuses_firstOf hend).readsMany.many.bind fun os hos => ?_
  subst hos
  exact .pure hfirst

/-- A level reads what the next tighter one reads, if none of its operators stands where it looks
    for one. -/
theorem ReadsAt.levelReader (h : ReadsAt last c P rest)
    (hstart : level.fixity = .before → Bars level.operators c.rest)
    (hend : level.fixity ≠ .before → Bars level.operators rest) :
    ReadsAt (level.reader last) c P rest := by
  unfold ReadsAt Level.reader
  split
  · next hfixity => exact h.leftChain (hend (by rw [hfixity]; decide))
  · next hfixity => exact h.rightChain (hend (by rw [hfixity]; decide)) _
  · next hfixity => exact h.beforeChain (hstart hfixity) _
  · next hfixity => exact h.afterChain (hend (by rw [hfixity]; decide))

/-- A level refuses what its operands refuse, unless it starts with an operator. -/
theorem Refuses.levelReader (h : Refuses last text) (hstart : Bars level.operators text) :
    Refuses (level.reader last) text := by
  have hright : ∀ n, Refuses (Reader.rightChain level last n) text := by
    intro n
    cases n with
    | zero => exact h
    | succ n => exact reads_offset.bind_refuses fun _ _ => h.bind
  have hbefore : ∀ n, Refuses (Reader.beforeChain level last n) text := by
    intro n
    cases n with
    | zero => exact h
    | succ n =>
      refine reads_offset.bind_refuses fun _ _ =>
        (refuses_firstOf hstart).bind.settle.bind_refuses fun o ho => ?_
      subst ho
      exact h
  intro c hc
  unfold Level.reader
  split
  · exact (reads_offset.bind_refuses fun _ _ => h.bind) c hc
  · exact hright _ c hc
  · exact hbefore _ c hc
  · exact (reads_offset.bind_refuses fun _ _ => h.bind) c hc

def operatorsOf (levels : List Level) : List Operator := levels.flatMap Level.operators

theorem operatorsOf_subset {levels levels' : List Level} (h : levels ⊆ levels') :
    operatorsOf levels ⊆ operatorsOf levels' := by
  intro o ho
  obtain ⟨level, hlevel, ho⟩ := mem_flatMap.mp ho
  exact mem_flatMap.mpr ⟨level, h hlevel, ho⟩

/-- The operators of some levels that stand before an operand. -/
def leadingOf (levels : List Level) : List Operator :=
  operatorsOf (levels.filter (·.fixity == .before))

/-- The operators of some levels that stand behind an operand. -/
def trailingOf (levels : List Level) : List Operator :=
  operatorsOf (levels.filter (·.fixity != .before))

/-- **Levels without their operators** read what the tightest one reads. -/
theorem ReadsAt.readLevels (h : ReadsAt last c P rest) (hstart : Bars (leadingOf levels) c.rest)
    (hend : Bars (trailingOf levels) rest) : ReadsAt (readLevels levels last) c P rest := by
  rw [Grammar.readLevels]
  induction levels generalizing last with
  | nil => exact h
  | cons level levels ih =>
    have hsubset : ∀ p : Level → Bool, operatorsOf (levels.filter p) ⊆
        operatorsOf ((level :: levels).filter p) := by
      intro p
      exact operatorsOf_subset ((sublist_cons_self level levels).filter p).subset
    have hlevel : ∀ p : Level → Bool, p level = true →
        level.operators ⊆ operatorsOf ((level :: levels).filter p) := by
      intro p hp o ho
      rw [filter_cons_of_pos hp]
      exact mem_append_left _ ho
    refine ih (h.levelReader (fun hf => hstart.subset (hlevel _ ?_))
      (fun hf => hend.subset (hlevel _ ?_))) (hstart.subset (hsubset _)) (hend.subset (hsubset _))
    · simp [hf]
    · simp [hf]

theorem Reads.readLevels (h : Reads last text P rest) (hstart : Bars (operatorsOf levels) text)
    (hend : Bars (operatorsOf levels) rest) : Reads (readLevels levels last) text P rest := by
  have hsubset : ∀ p : Level → Bool, operatorsOf (levels.filter p) ⊆ operatorsOf levels :=
    fun p => operatorsOf_subset (filter_subset_self levels)
  intro c hc
  exact (h c hc).readLevels (hc ▸ hstart.subset (hsubset _)) (hend.subset (hsubset _))

theorem Refuses.readLevels (h : Refuses last text) (hstart : Bars (operatorsOf levels) text) :
    Refuses (readLevels levels last) text := by
  rw [Grammar.readLevels]
  induction levels generalizing last with
  | nil => exact h
  | cons level levels ih =>
    exact ih (h.levelReader (hstart.subset (subset_append_left ..)))
      (hstart.subset (subset_append_right ..))

theorem ReadsAt.joined {mid' : List Char} (hlevel : level.fixity = .left)
    (hallowed : level.isForbidden = false) (h : ReadsAt last c P mid)
    (hop : Reads (Reader.firstOf level.operators) mid (· = op) mid')
    (hlast : Reads last mid' Q rest) (hend : Bars level.operators rest) :
    ReadsAt (level.reader last) c
      (fun n => ∃ lhs rhs loc, n = Node.ofBinary (binaryOf op) op lhs rhs loc ∧ P lhs ∧ Q rhs)
      rest := by
  unfold ReadsAt Level.reader
  rw [hlevel]
  have hstep : Reads (do return (← Reader.firstOf level.operators, ← last)) mid
      (fun b => b.1 = op ∧ Q b.2) rest :=
    hop.bind fun o ho => hlast.bind fun n hn => .pure ⟨ho, hn⟩
  refine readsAt_offset_bind fun loc => h.bind fun lhs hlhs => hstep.settle.bind ?_
  rintro _ ⟨⟨o, rhs⟩, rfl, rfl, hrhs⟩
  refine (refuses_firstOf hend).bind.readsMany.many.bind fun more hmore => ?_
  subst hmore
  simp only [hallowed, Bool.false_eq_true, if_false]
  exact .pure ⟨lhs, rhs, loc, rfl, hlhs, hrhs⟩

theorem ReadsAt.signed (hlevel : level.fixity = .before) (hne : c.rest ≠ [])
    (hop : ReadsAt (Reader.firstOf level.operators) c (· = op) mid) (hlast : Reads last mid Q rest)
    (hstart : Bars level.operators mid) : ReadsAt (level.reader last) c
      (fun n => ∃ arg loc, n = Node.ofUnary op arg loc ∧ Q arg) rest := by
  unfold ReadsAt Level.reader
  rw [hlevel]
  obtain ⟨k, hk⟩ := Nat.exists_eq_succ_of_ne_zero
    (mt length_eq_zero_iff.mp hne : c.rest.length ≠ 0)
  rw [hk]
  have harg : Reads (Reader.beforeChain level last k) mid Q rest :=
    fun c' hc' => (hlast c' hc').beforeChain (hc' ▸ hstart) k
  refine readsAt_offset_bind fun loc => ?_
  have hstep := hop.bind (f := fun o => do return (o, ← Reader.beforeChain level last k))
    (Q := fun b => b.1 = op ∧ Q b.2) fun o ho => harg.bind fun n hn => .pure ⟨ho, hn⟩
  refine hstep.settle.bind ?_
  rintro _ ⟨⟨o, arg⟩, rfl, rfl, hQ⟩
  exact .pure ⟨arg, loc, rfl, hQ⟩

end Levels

end Cppward.Grammar
