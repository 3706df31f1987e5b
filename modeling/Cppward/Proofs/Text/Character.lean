namespace Cppward.Text

/-!
# Classes of characters

Facts about finitely many characters are decided, and carry over to classes of characters that are
given by their numbers.

* `of_isUpper`, `of_isAlpha`, `of_isDigit` — what holds of the letters from `A` to `Z` holds of capital letters, and
  so for digits.
* `IsControl`, `not_isControl_of` — control characters, and classes without them.
-/

/-- The characters of a list are gone through one by one. -/
instance (priority := high) decidableForallMem {p : Char → Prop} [DecidablePred p]
    (cs : List Char) : Decidable (∀ c ∈ cs, p c) :=
  List.decidableBAll p cs

variable {c : Char}

theorem of_isUpper (p : Char → Bool) (hp : ∀ n < 26, p (Char.ofNat (65 + n)) = true)
    (h : c.isUpper = true) : p c = true := by
  have h := of_decide_eq_true h
  have hlow : 65 ≤ c.toNat := h.1
  have hhigh : c.toNat ≤ 90 := h.2
  have hc := hp (c.toNat - 65) (by omega)
  rwa [show 65 + (c.toNat - 65) = c.toNat by omega, Char.ofNat_toNat] at hc

theorem of_isAlpha (p : Char → Bool) (hupper : ∀ n < 26, p (Char.ofNat (65 + n)) = true)
    (hlower : ∀ n < 26, p (Char.ofNat (97 + n)) = true) (h : c.isAlpha = true) : p c = true := by
  have hcases : (c.isUpper || c.isLower) = true := h
  rcases Bool.or_eq_true_iff.mp hcases with h | h
  · exact of_isUpper p hupper h
  · have hrange := Bool.and_eq_true_iff.mp h
    have hlow : 97 ≤ c.toNat := of_decide_eq_true hrange.1
    have hhigh : c.toNat ≤ 122 := of_decide_eq_true hrange.2
    have hc := hlower (c.toNat - 97) (by omega)
    rwa [show 97 + (c.toNat - 97) = c.toNat by omega, Char.ofNat_toNat] at hc

theorem of_isDigit (p : Char → Bool) (hp : ∀ n < 10, p (Char.ofNat (48 + n)) = true)
    (h : c.isDigit = true) : p c = true := by
  rw [Char.isDigit, Bool.and_eq_true, decide_eq_true_eq, decide_eq_true_eq] at h
  have hlow : 48 ≤ c.toNat := h.1
  have hhigh : c.toNat ≤ 57 := h.2
  have hc := hp (c.toNat - 48) (by omega)
  rwa [show 48 + (c.toNat - 48) = c.toNat by omega, Char.ofNat_toNat] at hc

/-- The control characters, newlines and tabs among them. -/
def IsControl (c : Char) : Prop := c.toNat < 32

instance (c : Char) : Decidable (IsControl c) := inferInstanceAs (Decidable (_ < _))

/-- A class of characters that holds none of the first thirty-two holds no control character. -/
theorem not_isControl_of {p : Char → Bool} (hp : ∀ n < 32, p (Char.ofNat n) = false)
    (h : p c = true) : ¬IsControl c := by
  intro hc
  have hfalse := hp c.toNat hc
  rw [Char.ofNat_toNat, h] at hfalse
  cases hfalse

/-- The characters of a literal are a backslash, a newline, a quote, and those that are written as
    they are. -/
theorem literal_cases {motive : Char → Prop} (backslash : motive '\\') (newline : motive '\n')
    (quote : motive '"') (other : ∀ c, c ≠ '\\' → c ≠ '\n' → c ≠ '"' → motive c) (c : Char) :
    motive c := by
  by_cases h₁ : c = '\\'
  · exact h₁ ▸ backslash
  by_cases h₂ : c = '\n'
  · exact h₂ ▸ newline
  by_cases h₃ : c = '"'
  · exact h₃ ▸ quote
  exact other c h₁ h₂ h₃

end Cppward.Text
