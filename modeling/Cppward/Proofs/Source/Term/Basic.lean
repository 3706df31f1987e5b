import Cppward.Proofs.Source.OneLine

namespace Cppward.Source

open Grammar Layout Text List Node

/-!
# Terms in full parentheses

A term is made of names, numbers and operators.  It is printed on one line, with blanks between its
tokens and with parentheses around every operand that has an operator of its own.

* `Term`, `Term.tree`, `Term.print` — terms, their trees and their texts.
* `Term.exists_chars_eq_cons` — no text of a term starts with a blank.
-/

variable {t : Term} {s : String} {o : Operator} {x : Char} {u cs : List Char}

/-! ### Terms -/

/-- The words of the language that are no names in a term. -/
def keywords : List String :=
  ["not", "and", "or", "in", "return", "yield", "elif", "else", "except"]

def isTermName (s : String) : Bool :=
  (match s.toList with
    | [] => false
    | x :: cs => isNameStart x && cs.all isNameChar) && !keywords.contains s

def isTermNumber (s : String) : Bool := !s.toList.isEmpty && s.toList.all Char.isDigit

/-- The operators that stand before an operand. -/
def leadingOperators : List Operator :=
  [.word "not", .symbol "*", .symbol "&", .symbol "+", .symbol "-"]

/-- The operators that stand between two operands. -/
def joiningOperators : List Operator :=
  [.symbol "*", .symbol "/", .symbol "%", .symbol "+", .symbol "-", .symbol "==", .symbol "!=",
    .symbol "&", .symbol "^", .symbol "|", .word "and", .word "or"]

/-- Expressions of names, numbers and operators. -/
inductive Term where
  | name (text : { s : String // isTermName s = true })
  | number (digits : { s : String // isTermNumber s = true })
  | signed (op : { o : Operator // o ∈ leadingOperators }) (arg : Term)
  | joined (op : { o : Operator // o ∈ joiningOperators }) (lhs rhs : Term)

namespace Term

/-- The class of an operator between operands. -/
def classOf (op : String) : Binary :=
  if op = "==" then .equals else if op = "|" then .bitOr else .plain

def tree : Term → Node
  | .name text => Node.ident text
  | .number digits => Node.ofDigits digits
  | .signed op arg => Node.ofUnary op.val.text arg.tree
  | .joined op lhs rhs => Node.ofBinary (classOf op.val.text) op.val.text lhs.tree rhs.tree

def isCompound : Term → Bool
  | .name _ | .number _ => false
  | .signed .. | .joined .. => true

def enclose (t : Term) (text : String) : String :=
  if t.isCompound then "( " ++ text ++ " )" else text

/-- The text of a term, with parentheses around all operands that have operators. -/
def print : Term → String
  | .name text => text
  | .number digits => digits
  | .signed op arg => op.val.text ++ " " ++ arg.enclose arg.print
  | .joined op lhs rhs =>
    lhs.enclose lhs.print ++ " " ++ op.val.text ++ " " ++ rhs.enclose rhs.print

abbrev chars (t : Term) : List Char := t.print.toList

def operandChars (t : Term) : List Char := (t.enclose t.print).toList

theorem chars_signed (op : { o : Operator // o ∈ leadingOperators }) (arg : Term) :
    (signed op arg).chars = op.val.text.toList ++ ' ' :: arg.operandChars := by
  simp [chars, print, operandChars]

theorem chars_joined (op : { o : Operator // o ∈ joiningOperators }) (lhs rhs : Term) :
    (joined op lhs rhs).chars =
      lhs.operandChars ++ ' ' :: (op.val.text.toList ++ ' ' :: rhs.operandChars) := by
  simp [chars, print, operandChars]

theorem operandChars_of_compound (h : t.isCompound = true) :
    t.operandChars = '(' :: ' ' :: (t.chars ++ [' ', ')']) := by
  simp [operandChars, enclose, h]

theorem operandChars_of_leaf (h : t.isCompound = false) : t.operandChars = t.chars := by
  simp [operandChars, enclose, h]

theorem length_chars_le (t : Term) : t.chars.length ≤ t.operandChars.length := by
  cases h : t.isCompound with
  | false => rw [operandChars_of_leaf h]
  | true =>
    rw [operandChars_of_compound h]
    simp only [length_cons, length_append]
    omega

end Term

theorem exists_cons_of_isTermName (h : isTermName s = true) :
    ∃ x cs, s.toList = x :: cs ∧ isNameStart x = true ∧ (∀ d ∈ cs, isNameChar d = true) ∧
      s ∉ keywords ∧ ∀ d ∈ x :: cs, isWordChar d = true := by
  rw [isTermName, Bool.and_eq_true] at h
  obtain ⟨hname, hkeyword⟩ := h
  cases hs : s.toList with
  | nil =>
    rw [hs] at hname
    cases hname
  | cons x cs =>
    rw [hs, Bool.and_eq_true, all_eq_true] at hname
    exact ⟨x, cs, rfl, hname.1, hname.2, by simpa using hkeyword, forall_mem_cons.mpr
      ⟨isWordChar_of_isNameStart hname.1, fun d hd => isWordChar_of_isNameChar (hname.2 d hd)⟩⟩

theorem exists_cons_of_isTermNumber (h : isTermNumber s = true) :
    ∃ x cs, s.toList = x :: cs ∧ ∀ d ∈ x :: cs, d.isDigit = true := by
  rw [isTermNumber, Bool.and_eq_true, all_eq_true] at h
  cases hs : s.toList with
  | nil => simp [hs] at h
  | cons x cs => exact ⟨x, cs, rfl, hs ▸ h.2⟩

/-- The characters that terms are made of, besides those of names and numbers. -/
def termMarks : List Char := ['(', ')', ' ', '*', '/', '%', '+', '-', '=', '!', '&', '^', '|']

theorem operator_chars (h : o ∈ leadingOperators ++ joiningOperators) :
    (∃ x cs, o.text.toList = x :: cs ∧ isBlank x = false) ∧
      ∀ d ∈ o.text.toList, (isWordChar d = true ∨ d ∈ termMarks) ∧ d ≠ 'e' := by
  have hhead := (by decide : ∀ o ∈ leadingOperators ++ joiningOperators,
    o.text.toList.head?.any (fun x => !isBlank x) = true) o h
  refine ⟨?_, (by decide : ∀ o ∈ leadingOperators ++ joiningOperators,
    ∀ d ∈ o.text.toList, (isWordChar d = true ∨ d ∈ termMarks) ∧ d ≠ 'e') o h⟩
  cases hlist : o.text.toList with
  | nil =>
    rw [hlist] at hhead
    cases hhead
  | cons x cs => exact ⟨x, cs, rfl, by simpa [hlist] using hhead⟩

theorem isBlank_of_isWordChar (h : isWordChar x = true) : isBlank x = false := by
  by_contra hblank
  rw [Bool.not_eq_false, isBlank] at hblank
  -- a blank has a number below that of the first mark, or one of a short list
  have hmem : x.toNat ∈ List.range 33 ++ wideBlanks := by
    simp only [Bool.or_eq_true, Bool.and_eq_true, decide_eq_true_eq, contains_iff_mem] at hblank
    rw [mem_append, mem_range]
    rcases hblank with (hlow | hlow) | hwide
    · exact .inl (by omega)
    · exact .inl (by omega)
    · exact .inr hwide
  have hword := (by decide : ∀ n ∈ List.range 33 ++ wideBlanks,
    isWordChar (Char.ofNat n) = false) x.toNat hmem
  rw [Char.ofNat_toNat, h] at hword
  cases hword

namespace Term

/-- A term starts with a character that is no blank. -/
theorem exists_chars_eq_cons (t : Term) : ∃ x cs, t.chars = x :: cs ∧ isBlank x = false := by
  induction t with
  | name s =>
    obtain ⟨x, cs, hlist, hx, -⟩ := exists_cons_of_isTermName s.property
    exact ⟨x, cs, hlist, isBlank_of_isWordChar (isWordChar_of_isNameStart hx)⟩
  | number s =>
    obtain ⟨x, cs, hlist, hdigits⟩ := exists_cons_of_isTermNumber s.property
    have hx := hdigits x (by simp)
    exact ⟨x, cs, hlist, isBlank_of_isWordChar (by simp [isWordChar, Char.isAlphanum, hx])⟩
  | signed op arg _ =>
    obtain ⟨⟨x, cs, hlist, hx⟩, -⟩ := operator_chars (mem_append_left _ op.property)
    exact ⟨x, _, by rw [chars_signed, hlist, cons_append], hx⟩
  | joined op lhs rhs ih _ =>
    rw [chars_joined]
    cases hcompound : lhs.isCompound with
    | true => exact ⟨'(', _, by rw [operandChars_of_compound hcompound, cons_append], by decide⟩
    | false =>
      obtain ⟨x, cs, hlist, hx⟩ := ih
      exact ⟨x, _, by rw [operandChars_of_leaf hcompound, hlist, cons_append], hx⟩

theorem exists_operandChars_eq_cons (t : Term) :
    ∃ x cs, t.operandChars = x :: cs ∧ isBlank x = false := by
  cases hcompound : t.isCompound with
  | true => exact ⟨'(', _, operandChars_of_compound hcompound, by decide⟩
  | false => exact operandChars_of_leaf hcompound ▸ t.exists_chars_eq_cons

end Term

theorem dropWhile_of_isBlank (h : ∃ x cs, u = x :: cs ∧ isBlank x = false)
    (rest : List Char) : (u ++ rest).dropWhile isGap = u ++ rest := by
  obtain ⟨x, cs, rfl, hx⟩ := h
  rw [cons_append, dropWhile_cons_of_neg]
  intro hgap
  rw [isBlank_of_isGap hgap] at hx
  cases hx

theorem dropWhile_space (h : ∃ x cs, u = x :: cs ∧ isBlank x = false) (rest : List Char) :
    (' ' :: (u ++ rest)).dropWhile isGap = u ++ rest := by
  rw [dropWhile_cons_of_pos (by decide)]
  exact dropWhile_of_isBlank h rest

end Cppward.Source
