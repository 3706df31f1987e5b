import Cppward.Emit.Parens
import Mathlib.Data.List.Basic

namespace Cppward.Emit

open List

/-!
# Two outer pairs of parentheses

* `Matches k` — texts that close `k` more parentheses than they open, and none that is not open.
* `scanDouble_inside` — inside two pairs, the scan looks for the end of such a text.
* `hasOuterDoubleParens_iff` — a text is found to stand in two pairs exactly if it does.
-/

variable {k : Nat} {c : Char} {u cs : List Char}

/-- Where `k` parentheses are open, the text closes those and all that it opens, each after it was
    opened. -/
def Matches (k : Nat) (u : List Char) : Prop :=
  (∀ v, v <+: u → v.count ')' ≤ v.count '(' + k) ∧ u.count ')' = u.count '(' + k

theorem matches_nil : Matches k [] ↔ k = 0 := by
  simp [Matches, eq_comm]

theorem forall_prefix_cons {P : List Char → Prop} :
    (∀ v, v <+: c :: u → P v) ↔ P [] ∧ ∀ v, v <+: u → P (c :: v) := by
  constructor
  · exact fun h => ⟨h [] nil_prefix, fun v hv => h (c :: v) (cons_prefix_cons.mpr ⟨rfl, hv⟩)⟩
  · rintro ⟨hnil, hcons⟩ v hv
    rcases prefix_cons_iff.mp hv with rfl | ⟨w, rfl, hw⟩
    · exact hnil
    · exact hcons w hw

theorem matches_open : Matches k ('(' :: u) ↔ Matches (k + 1) u := by
  simp [Matches, forall_prefix_cons, Nat.add_assoc, Nat.add_comm 1 k]

theorem not_matches_close : ¬Matches 0 (')' :: u) := by
  intro h
  simpa using (forall_prefix_cons.mp h.1).2 [] nil_prefix

theorem matches_close : Matches (k + 1) (')' :: u) ↔ Matches k u := by
  simp [Matches, forall_prefix_cons, ← Nat.add_assoc]

theorem matches_other (hopen : c ≠ '(') (hclose : c ≠ ')') : Matches k (c :: u) ↔ Matches k u := by
  simp [Matches, forall_prefix_cons, hopen, hclose]

/-! ### The scan -/

/-- What is left of a text when two pairs and `k` further parentheses are open. -/
def Closes (k : Nat) (cs : List Char) : Prop := ∃ u, cs = u ++ [')', ')'] ∧ Matches k u

theorem closes_cons : Closes k (c :: cs) ↔
    (c = ')' ∧ cs = [')'] ∧ k = 0) ∨ ∃ u, cs = u ++ [')', ')'] ∧ Matches k (c :: u) := by
  constructor
  · rintro ⟨_ | ⟨d, u⟩, heq, hu⟩
    · cases heq
      exact .inl ⟨rfl, rfl, matches_nil.mp hu⟩
    · cases heq
      exact .inr ⟨u, rfl, hu⟩
  · rintro (⟨rfl, rfl, hk⟩ | ⟨u, rfl, hu⟩)
    · exact ⟨[], rfl, matches_nil.mpr hk⟩
    · exact ⟨c :: u, rfl, hu⟩

theorem scanDouble_ended : scanDouble 1 true true cs = true ↔ cs = [')'] := by
  have hend : ∀ cs, scanDouble 0 true true cs = true ↔ cs = [] := by
    intro cs
    unfold scanDouble
    split <;> simp
  unfold scanDouble
  split
  · simp
  · simp
  · simp [hend]
  · simp_all

/-- Inside two pairs and `k` further parentheses, all of them have to be closed. -/
theorem scanDouble_inside (cs : List Char) (k : Nat) :
    scanDouble (k + 2) true false cs = true ↔ Closes k cs := by
  induction cs generalizing k with
  | nil => simp [scanDouble, Closes]
  | cons c cs ih =>
    rw [closes_cons]
    by_cases hopen : c = '('
    · have hstep : scanDouble (k + 2) true false ('(' :: cs) = scanDouble (k + 3) true false cs := rfl
      rw [hopen, hstep, ih]
      simp [Closes, matches_open]
    by_cases hclose : c = ')'
    · rw [hclose]
      cases k with
      | zero =>
        have hstep : scanDouble 2 true false (')' :: cs) = scanDouble 1 true true cs := rfl
        rw [hstep, scanDouble_ended]
        simp [not_matches_close]
      | succ k =>
        have hstep : scanDouble (k + 3) true false (')' :: cs) = scanDouble (k + 2) true false cs := rfl
        rw [hstep, ih]
        simp [Closes, matches_close]
    · have hstep : scanDouble (k + 2) true false (c :: cs) = scanDouble (k + 2) true false cs := by
        simp [scanDouble]
      rw [hstep, ih]
      simp [Closes, hclose, matches_other hopen hclose]

/-- **Double parentheses are found exactly.**  A text stands in two pairs of parentheses if what is
    left without them closes all parentheses that it opens, and only those. -/
theorem hasOuterDoubleParens_iff (s : String) (hs : s ≠ "") : hasOuterDoubleParens s = true ↔
    ∃ u, s.toList = '(' :: '(' :: (u ++ [')', ')']) ∧
      (∀ v, v <+: u → v.count ')' ≤ v.count '(') ∧ u.count '(' = u.count ')' := by
  have hdouble : ∀ cs, scanDouble 0 false false ('(' :: '(' :: cs) = true ↔ Closes 0 cs :=
    fun cs => scanDouble_inside cs 0
  rw [hasOuterDoubleParens]
  rcases hcs : s.toList with _ | ⟨c, _ | ⟨d, cs⟩⟩
  · exact absurd (String.toList_eq_nil_iff.mp hcs) hs
  · by_cases hopen : c = '(' <;> by_cases hclose : c = ')' <;> simp_all [scanDouble]
  · by_cases hc : c = '('
    · by_cases hd : d = '('
      · rw [hc, hd, hdouble]
        simp [Closes, Matches, eq_comm]
      · by_cases hd' : d = ')' <;> simp_all [scanDouble]
    · by_cases hc' : c = ')' <;> simp_all [scanDouble]

theorem hasOuterDoubleParens_iff_sideBySide : "(((a)(b)))" ≠ "" ∧
    ∃ u, "(((a)(b)))".toList = '(' :: '(' :: (u ++ [')', ')']) ∧
      (∀ v, v <+: u → v.count ')' ≤ v.count '(') ∧ u.count '(' = u.count ')' :=
  ⟨by decide, (hasOuterDoubleParens_iff "(((a)(b)))" (by decide)).mp (by decide)⟩

end Cppward.Emit
