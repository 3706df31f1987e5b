import Mathlib.Data.List.Basic
import Mathlib.Data.Option.Basic

namespace Cppward.Target

open List

/-!
# Tokens of the target language

A generated expression is cut into tokens from left to right.  The longest operator that fits is
taken, and a run of the characters of names and numbers is one word.

Operators stand between blanks in generated text, so a `<` that touches the word before it opens the
arguments of a template.  Two of them in a row open nothing that could be closed.

* `LexesBefore follows code tokens` — what a piece of text contributes, in front of any text that
  passes `follows`; `LexesBefore.append` puts pieces together.
* `lexesBefore_word`, `lexesBefore_operator`, `lexesBefore_sign`, … — the pieces that occur.
-/

variable {follows follows' : List Char → Prop} {ts us : Option (List Token)} {c : Char} {t : Token}
  {o rest w : List Char}

inductive Bracket where
  | round
  | curly
  deriving DecidableEq, Repr

inductive Token where
  | word (text : List Char)
  | op (text : List Char)
  | opening (b : Bracket)
  | closing (b : Bracket)
  | comma
  /-- The `<` that opens the arguments of a template. -/
  | angle
  | blank
  deriving DecidableEq, Repr

/-- The characters of names, qualified or not, and of numbers. -/
def isWordChar (c : Char) : Bool := c.isAlphanum || c == '_' || c == '.' || c == ':'

/-- The operators, longer ones before those that they start with. -/
def operators : List (List Char) :=
  [['<', '<', '='], ['>', '>', '='], ['<', '=', '>'], ['-', '>', '*'],
    ['-', '>'], ['=', '='], ['!', '='], ['<', '='], ['>', '='], ['&', '&'], ['|', '|'],
    ['<', '<'], ['>', '>'], ['+', '='], ['-', '='], ['*', '='], ['/', '='], ['%', '='],
    ['&', '='], ['|', '='], ['^', '='], ['+', '+'], ['-', '-'],
    ['+'], ['-'], ['*'], ['/'], ['%'], ['<'], ['>'], ['&'], ['|'], ['^'], ['!'], ['='], ['~']]

/-- The longest operator that a text starts with. -/
def munch (cs : List Char) : Option (List Char) := operators.find? (·.isPrefixOf cs)

/-- The tokens of one character that are no operators. -/
def mark? : Char → Option Token
  | ' ' => some .blank
  | ',' => some .comma
  | '(' => some (.opening .round)
  | ')' => some (.closing .round)
  | '\x7b' => some (.opening .curly)
  | '\x7d' => some (.closing .curly)
  | _ => none

/-- Puts a character of a word in front of the tokens of the text that it touches. -/
def glue (c : Char) : List Token → Option (List Token)
  | .word cs :: ts => some (.word (c :: cs) :: ts)
  | .op ['<'] :: ts => some (.word [c] :: .angle :: ts)
  | .op ('<' :: '<' :: _) :: _ => none
  | ts => some (.word [c] :: ts)

/-- The tokens of a text, of which the first `skip` characters belong to an operator that has been
    taken already. -/
def lex : (skip : Nat) → List Char → Option (List Token)
  | _, [] => some []
  | skip + 1, _ :: cs => lex skip cs
  | 0, c :: cs =>
    if isWordChar c then (lex 0 cs).bind (glue c)
    else
      match mark? c with
      | some t => (lex 0 cs).map (t :: ·)
      | none =>
        match munch (c :: cs) with
        | some o => (lex (o.length - 1) cs).map (.op o :: ·)
        | none => none

/-! ### Pieces of text -/

/-- In front of a text that passes `follows`, the piece `code` contributes `tokens`.  A piece that
    contributes `none` spoils every text that it is part of. -/
def LexesBefore (follows : List Char → Prop) (code : List Char) (tokens : Option (List Token)) :
    Prop :=
  ∀ rest, follows rest →
    lex 0 (code ++ rest) = tokens.bind fun ts => (lex 0 rest).map (ts ++ ·)

/-- The text is at its end or goes on with a mark. -/
def Stops (rest : List Char) : Prop := ∀ c ∈ rest.head?, (mark? c).isSome = true

/-- The text starts as an operand does. -/
def StartsOperand (rest : List Char) : Prop :=
  ∃ c ∈ rest.head?, isWordChar c = true ∨ c = '(' ∨ c = '!'

/-- The tokens of two pieces in a row. -/
def both (ts us : Option (List Token)) : Option (List Token) :=
  ts.bind fun ts => us.map (ts ++ ·)

@[simp] theorem both_some (ts us : List Token) : both (some ts) (some us) = some (ts ++ us) := rfl

@[simp] theorem both_none (ts : Option (List Token)) : both ts none = none := by
  cases ts <;> rfl

theorem LexesBefore.append {a b : List Char}
    (ha : LexesBefore follows a ts) (hb : LexesBefore follows' b us)
    (hfollows : ∀ rest, follows' rest → follows (b ++ rest)) :
    LexesBefore follows' (a ++ b) (both ts us) := by
  intro rest hrest
  rw [append_assoc, ha _ (hfollows rest hrest), hb rest hrest]
  cases ts with
  | none => rfl
  | some ts => cases us <;> cases lex 0 rest <;> simp

theorem LexesBefore.mono {code : List Char} (h : LexesBefore follows code ts)
    (hfollows : ∀ rest, follows' rest → follows rest) : LexesBefore follows' code ts :=
  fun rest hrest => h rest (hfollows rest hrest)

theorem lexesBefore_mark (hword : isWordChar c = false)
    (hmark : mark? c = some t) : LexesBefore (fun _ => True) [c] (some [t]) := by
  intro rest _
  simp [lex, hword, hmark]

/-! ### Operators -/

/-- The text is at its end or goes on with a character that no operator has inside. -/
def EndsOperator (rest : List Char) : Prop :=
  ∀ c ∈ rest.head?, ∀ o ∈ operators, c ∉ o.drop 1

/-- No operator comes before a longer one that starts with it. -/
theorem operators_pairwise : operators.Pairwise fun a b => ¬ a <+: b := by decide

/-- The longest operator at the start of a text ends where no operator goes on. -/
theorem munch_append (ho : o ∈ operators) (hne : o ≠ [])
    (hrest : EndsOperator rest) : munch (o ++ rest) = some o := by
  obtain ⟨before, after, hsplit⟩ := append_of_mem ho
  refine find?_eq_some_iff_append.mpr ⟨by simp, before, after, hsplit, fun x hx => ?_⟩
  rw [Bool.not_eq_true', ← Bool.not_eq_true, List.isPrefixOf_iff_prefix]
  intro hpre
  rcases Nat.lt_or_ge o.length x.length with hlt | hle
  · -- a longer operator would have the next character inside
    obtain ⟨more, rfl⟩ : o <+: x :=
      prefix_of_prefix_length_le (prefix_append _ _) hpre (Nat.le_of_lt hlt)
    have hmore : more <+: rest := (prefix_append_right_inj o).mp hpre
    cases more with
    | nil => simp at hlt
    | cons d more =>
      have hmem : o ++ d :: more ∈ operators := hsplit ▸ mem_append_left _ hx
      refine hrest d ?_ _ hmem ?_
      · obtain ⟨rest, rfl⟩ := hmore
        simp
      · cases o with
        | nil => exact absurd rfl hne
        | cons c o => simp
  · have horder := hsplit ▸ operators_pairwise
    have hfirst := (pairwise_append.mp horder).2.2 x hx o mem_cons_self
    exact hfirst (prefix_of_prefix_length_le hpre (prefix_append _ _) hle)

theorem lex_length_append (xs rest : List Char) : lex xs.length (xs ++ rest) = lex 0 rest := by
  induction xs with
  | nil => rfl
  | cons x xs ih => exact ih

theorem head_operator : ∀ o ∈ operators, ∃ c ∈ o.head?, isWordChar c = false ∧ mark? c = none := by
  have hall : (operators.all fun o => o.head?.any fun c =>
      !isWordChar c && (mark? c).isNone) = true := by decide
  intro o ho
  have hhead := all_eq_true.mp hall o ho
  cases hc : o.head? with
  | none => simp [hc] at hhead
  | some c => exact ⟨c, rfl, by simpa [hc] using hhead⟩

theorem lexesBefore_op (ho : o ∈ operators) : LexesBefore EndsOperator o (some [.op o]) := by
  intro rest hrest
  obtain ⟨c, hc, hword, hmark⟩ := head_operator o ho
  cases o with
  | nil => simp at hc
  | cons d more =>
    obtain rfl : d = c := by simpa using hc
    have hmunch := munch_append ho (by simp) hrest
    rw [cons_append] at hmunch ⊢
    rw [lex, hmark, hmunch]
    simp [hword, lex_length_append]

/-! ### Words -/

/-- A run of word characters is one token, if its last character is a word in front of the rest. -/
theorem lex_word_append (hne : w ≠ []) (hword : ∀ c ∈ w, isWordChar c = true)
    (hlast : ∀ c, (lex 0 rest).bind (glue c) = us.map (.word [c] :: ·)) :
    lex 0 (w ++ rest) = us.map (.word w :: ·) := by
  induction w with
  | nil => exact absurd rfl hne
  | cons c w ih =>
    rw [cons_append, lex, if_pos (hword c mem_cons_self)]
    cases w with
    | nil => exact hlast c
    | cons d w =>
      rw [ih (by simp) fun x hx => hword x (mem_cons_of_mem c hx)]
      cases us <;> simp [glue]

/-- The tokens that a word before them may run into. -/
def Token.sticks : Token → Bool
  | .word _ => true
  | .op ('<' :: _) => true
  | _ => false

theorem glue_of_sticks_eq_false (h : t.sticks = false) (c : Char) (ts : List Token) :
    glue c (t :: ts) = some (.word [c] :: t :: ts) := by
  unfold glue
  split <;> simp_all [Token.sticks]

theorem of_mark? (h : mark? c = some t) :
    isWordChar c = false ∧ t.sticks = false ∧ ∀ o ∈ operators, c ∉ o.drop 1 := by
  unfold mark? at h
  split at h <;> cases h <;> exact ⟨rfl, rfl, by decide⟩

/-- The text does not go on with a word, nor with template arguments. -/
def StopsWord (rest : List Char) : Prop := ∀ c ∈ rest.head?, isWordChar c = false ∧ c ≠ '<'

/-- A text that stops words starts with a token that they do not run into. -/
theorem sticks_of_stopsWord {ts : List Token} (h : StopsWord rest)
    (hlex : lex 0 rest = some ts) : ∀ t ∈ ts.head?, t.sticks = false := by
  cases rest with
  | nil =>
    obtain rfl : ts = [] := by simpa [lex] using hlex.symm
    simp
  | cons c rest =>
    obtain ⟨hword, hangle⟩ := h c rfl
    rw [lex, if_neg (by simp [hword])] at hlex
    split at hlex
    · rename_i t hmark
      obtain ⟨us, -, rfl⟩ := Option.map_eq_some_iff.mp hlex
      simpa using (of_mark? hmark).2.1
    · split at hlex
      · rename_i o hmunch
        obtain ⟨us, -, rfl⟩ := Option.map_eq_some_iff.mp hlex
        -- the operator starts with the character at hand
        have hpre := find?_some hmunch
        have hmem := mem_of_find?_eq_some hmunch
        cases o with
        | nil => exact absurd hmem (by decide)
        | cons d more =>
          obtain ⟨rfl, -⟩ : d = c ∧ _ := by simpa using hpre
          unfold Token.sticks
          simp [hangle]
      · exact absurd hlex (by simp)

theorem Stops.stopsWord (h : Stops rest) : StopsWord rest := by
  intro c hc
  obtain ⟨t, ht⟩ := Option.isSome_iff_exists.mp (h c hc)
  exact ⟨(of_mark? ht).1, by rintro rfl; cases ht⟩

theorem Stops.endsOperator (h : Stops rest) : EndsOperator rest := by
  intro c hc
  obtain ⟨t, ht⟩ := Option.isSome_iff_exists.mp (h c hc)
  exact (of_mark? ht).2.2

theorem lexesBefore_word (hne : w ≠ []) (hword : ∀ c ∈ w, isWordChar c = true) :
    LexesBefore StopsWord w (some [.word w]) := by
  intro rest hrest
  refine lex_word_append hne hword fun c => ?_
  cases hlex : lex 0 rest with
  | none => rfl
  | some ts =>
    have hsticks := sticks_of_stopsWord hrest hlex
    cases ts with
    | nil => rfl
    | cons t ts => exact glue_of_sticks_eq_false (hsticks t rfl) c ts

theorem lexesBefore_template (hne : w ≠ []) (hword : ∀ c ∈ w, isWordChar c = true) :
    LexesBefore EndsOperator (w ++ ['<']) (some [.word w, .angle]) := by
  intro rest hrest
  have hangle := lexesBefore_op (o := ['<']) (by decide) rest hrest
  have hlex : lex 0 (w ++ (['<'] ++ rest)) =
      ((lex 0 rest).map (.angle :: ·)).map (.word w :: ·) := by
    refine lex_word_append hne hword fun c => ?_
    rw [hangle]
    cases lex 0 rest <;> simp [glue]
  rw [append_assoc, hlex]
  cases lex 0 rest <;> simp

/-- A word and two `<` that touch it spoil the text. -/
theorem lexesBefore_spoiled (hne : w ≠ []) (hword : ∀ c ∈ w, isWordChar c = true) :
    LexesBefore EndsOperator (w ++ ['<', '<']) none := by
  intro rest hrest
  have hangle := lexesBefore_op (o := ['<', '<']) (by decide) rest hrest
  have hlex : lex 0 (w ++ (['<', '<'] ++ rest)) = (none : Option _).map (.word w :: ·) := by
    refine lex_word_append hne hword fun c => ?_
    rw [hangle]
    cases lex 0 rest <;> simp [glue]
  rw [append_assoc, hlex]
  rfl

end Cppward.Target
