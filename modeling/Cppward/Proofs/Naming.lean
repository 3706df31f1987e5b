import Cppward.Grammar.Expression
import Cppward.Naming
import Mathlib.Data.List.Forall2

namespace Cppward

open Grammar

/-!
# Fresh names

What fresh names look like, as far as the grammar is concerned, and computations that make them.

* `exists_freshName_eq_cons` — the characters of a fresh name are those of names.
* `freshName_injective` — names with different numbers are different.
* `Naming.Gives` — a computation succeeds; one lemma for each way to build it.
-/

def freshName (number : Nat) : String := privateName "" number

theorem toList_freshName (number : Nat) :
    (freshName number).toList = "ceto__private__".toList ++ Nat.toDigits 10 number := by
  unfold freshName privateName
  simp [Nat.toString_eq_repr, Nat.toList_repr]

theorem isNameChar_of_mem_freshName {number : Nat} {c : Char} (h : c ∈ (freshName number).toList) :
    isNameChar c = true := by
  rw [toList_freshName, List.mem_append] at h
  rcases h with h | h
  · exact (by decide : ∀ c ∈ "ceto__private__".toList, isNameChar c = true) c h
  · have hdigit : c.isDigit = true := Nat.isDigit_of_mem_toDigits (by decide) (by decide) h
    simp [isNameChar, Char.isAlphanum, hdigit]

theorem exists_freshName_eq_cons (number : Nat) :
    ∃ cs, (freshName number).toList = 'c' :: cs ∧ ∀ d ∈ cs, isNameChar d = true := by
  refine ⟨"eto__private__".toList ++ Nat.toDigits 10 number, by rw [toList_freshName]; rfl, ?_⟩
  intro d hd
  have hmem : d ∈ (freshName number).toList := by
    rw [toList_freshName]
    exact List.mem_cons_of_mem 'c' hd
  exact isNameChar_of_mem_freshName hmem

theorem freshName_injective {a b : Nat} (h : freshName a = freshName b) : a = b := by
  have hdigits : Nat.toDigits 10 a = Nat.toDigits 10 b := by
    have htext := congrArg String.toList h
    rwa [toList_freshName, toList_freshName, List.append_cancel_left_eq] at htext
  calc
    a = Nat.ofDigitChars 10 (Nat.toDigits 10 a) 0 := Nat.ofDigitChars_ten_toDigits.symm
    _ = Nat.ofDigitChars 10 (Nat.toDigits 10 b) 0 := by rw [hdigits]
    _ = b := Nat.ofDigitChars_ten_toDigits

/-! ### Computations -/

namespace Naming

variable {α β : Type} {x : Naming α} {f : α → Naming β} {k : Nat} {P : α → Nat → Prop}
  {Q : β → Nat → Prop}

/-- From the number `k` on, the computation succeeds with a result and a last number for which `P`
    holds. -/
def Gives (x : Naming α) (k : Nat) (P : α → Nat → Prop) : Prop :=
  ∃ a k', x k = .ok (a, k') ∧ k ≤ k' ∧ P a k'

theorem Gives.bind (h : Gives x k P) (hf : ∀ a k', k ≤ k' → P a k' → Gives (f a) k' Q) :
    Gives (x >>= f) k Q := by
  obtain ⟨a, k', hx, hk, ha⟩ := h
  obtain ⟨b, k'', hb, hk', hQ⟩ := hf a k' hk ha
  refine ⟨b, k'', ?_, Nat.le_trans hk hk', hQ⟩
  change (x k >>= fun p => f p.1 p.2) = _
  rw [hx]
  exact hb

theorem Gives.pure {a : α} (h : P a k) : Gives (pure a) k P := ⟨a, k, rfl, Nat.le_refl k, h⟩

theorem Gives.mono {P' : α → Nat → Prop} (h : Gives x k P)
    (hP : ∀ a k', k ≤ k' → P a k' → P' a k') : Gives x k P' := by
  obtain ⟨a, k', hx, hk, ha⟩ := h
  exact ⟨a, k', hx, hk, hP a k' hk ha⟩

theorem gives_lift_bind {e : Except Failure α} {a : α} (he : e = .ok a) (h : Gives (f a) k Q) :
    Gives (liftM e >>= f) k Q := by
  obtain ⟨b, k', hb, hk, hQ⟩ := h
  refine ⟨b, k', ?_, hk, hQ⟩
  rw [he]
  exact hb

theorem gives_fresh : Gives fresh k (fun s k' => s = freshName k' ∧ k' = k + 1) :=
  ⟨freshName (k + 1), k + 1, rfl, Nat.le_succ k, rfl, rfl⟩

theorem gives_mapM {g : α → Naming β} {R : α → β → Prop} {as : List α}
    (h : ∀ a ∈ as, ∀ k', k ≤ k' → Gives (g a) k' (fun b _ => R a b)) :
    ∀ k', k ≤ k' → Gives (as.mapM g) k' (fun bs _ => List.Forall₂ R as bs) := by
  induction as with
  | nil =>
    intro k' _
    exact .pure .nil
  | cons a as ih =>
    intro k' hk
    obtain ⟨ha, has⟩ := List.forall_mem_cons.mp h
    rw [List.mapM_cons]
    refine (ha k' hk).bind fun b k₁ hk₁ hb => ?_
    refine (ih has k₁ (Nat.le_trans hk hk₁)).bind fun bs k₂ _ hbs => ?_
    exact .pure (.cons hb hbs)

theorem gives_mapM_option {g : α → Naming β} {R : α → β → Prop} {o : Option α}
    (h : ∀ a ∈ o, ∀ k', k ≤ k' → Gives (g a) k' (fun b _ => R a b)) :
    ∀ k', k ≤ k' → Gives (o.mapM g) k' (fun p _ => List.Forall₂ R o.toList p.toList) := by
  intro k' hk
  cases o with
  | none => exact .pure .nil
  | some a => exact (h a rfl k' hk).bind fun b k₁ _ hb => .pure (.cons hb .nil)

end Naming

end Cppward
