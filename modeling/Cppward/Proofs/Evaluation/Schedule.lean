import Mathlib.Computability.Language

namespace Cppward.Evaluation

open List

open scoped Computability

/-!
# Order of evaluation

A schedule says in what order the parts of a construct are evaluated, and how often.  Given the
traces of the parts, it has traces of its own (`Schedule.language`).  What may come after an event in
a trace is read off the schedule:

* `Meets`, `Continues` — an event occurs in some trace; in some trace it is not the last event,
* `Schedule.After` — one part may be evaluated after another one; `Schedule.after` finds those parts,
* `meets_language`, `continues_language` — the events of the whole, from those of the parts.
-/

variable {α β : Type}

/-! ### Languages of traces -/

/-- The event is not the last one in the trace. -/
def Followed (e : β) (t : List β) : Prop := ∃ before after, t = before ++ e :: after ∧ after ≠ []

/-- The event occurs in some trace. -/
def Meets (L : Language β) (e : β) : Prop := ∃ t ∈ L, e ∈ t

/-- The event occurs in some trace and is not the last one there. -/
def Continues (L : Language β) (e : β) : Prop := ∃ t ∈ L, Followed e t

def Runs (L : Language β) : Prop := ∃ t, t ∈ L

theorem Followed.mem {e : β} {t : List β} (h : Followed e t) : e ∈ t := by
  obtain ⟨before, after, rfl, -⟩ := h
  simp

theorem not_followed_singleton (e x : β) : ¬Followed e [x] := by
  rintro ⟨before, after, h, hne⟩
  cases before with
  | nil => simp_all
  | cons y before => simp at h

theorem followed_append {e : β} {s t : List β} :
    Followed e (s ++ t) ↔ Followed e s ∨ Followed e t ∨ e ∈ s ∧ t ≠ [] := by
  constructor
  · -- The cut at the event lies in `s` or in `t`.
    rintro ⟨before, after, h, hne⟩
    rcases append_eq_append_iff.mp h with ⟨zs, rfl, htail⟩ | ⟨zs, hs, htail⟩
    · exact .inr (.inl ⟨zs, after, htail, hne⟩)
    · cases zs with
      | nil => exact .inr (.inl ⟨[], after, by simpa using htail.symm, hne⟩)
      | cons z zs =>
        obtain ⟨rfl, rfl⟩ := List.cons.inj htail
        by_cases hzs : zs = []
        · subst hzs
          exact .inr (.inr ⟨by simp [hs], by simpa using hne⟩)
        · exact .inl ⟨before, zs, hs, hzs⟩
  · rintro (⟨before, after, rfl, hne⟩ | ⟨before, after, rfl, hne⟩ | ⟨hs, ht⟩)
    · exact ⟨before, after ++ t, by simp, by simp [hne]⟩
    · exact ⟨s ++ before, after, by simp, hne⟩
    · obtain ⟨before, after, rfl⟩ := append_of_mem hs
      exact ⟨before, after ++ t, by simp, by simp [ht]⟩

theorem Continues.meets {L : Language β} {e : β} (h : Continues L e) : Meets L e := by
  obtain ⟨t, ht, hfollowed⟩ := h
  exact ⟨t, ht, hfollowed.mem⟩

section Algebra

variable {A B : Language β} {e : β}

theorem runs_one : Runs (1 : Language β) := ⟨[], Language.nil_mem_one⟩

theorem Runs.mul (hA : Runs A) (hB : Runs B) : Runs (A * B) := by
  obtain ⟨s, hs⟩ := hA
  obtain ⟨t, ht⟩ := hB
  exact ⟨s ++ t, Language.append_mem_mul hs ht⟩

theorem Runs.add (hA : Runs A) : Runs (A + B) := by
  obtain ⟨s, hs⟩ := hA
  exact ⟨s, (Language.mem_add ..).mpr (.inl hs)⟩

theorem runs_kstar (A : Language β) : Runs A∗ := ⟨[], Language.nil_mem_kstar A⟩

theorem not_meets_one (e : β) : ¬Meets 1 e := by
  rintro ⟨t, ht, he⟩
  rw [(Language.mem_one t).mp ht] at he
  cases he

theorem not_continues_one (e : β) : ¬Continues 1 e := fun h => not_meets_one e h.meets

theorem meets_mul (hA : Runs A) (hB : Runs B) : Meets (A * B) e ↔ Meets A e ∨ Meets B e := by
  constructor
  · rintro ⟨_, hst, he⟩
    obtain ⟨s, hs, t, ht, rfl⟩ := Language.mem_mul.mp hst
    rcases mem_append.mp he with he | he
    · exact .inl ⟨s, hs, he⟩
    · exact .inr ⟨t, ht, he⟩
  · rintro (⟨s, hs, he⟩ | ⟨t, ht, he⟩)
    · obtain ⟨t, ht⟩ := hB
      exact ⟨s ++ t, Language.append_mem_mul hs ht, mem_append_left t he⟩
    · obtain ⟨s, hs⟩ := hA
      exact ⟨s ++ t, Language.append_mem_mul hs ht, mem_append_right s he⟩

theorem continues_mul (hA : Runs A) (hB : Runs B) :
    Continues (A * B) e ↔ Continues A e ∨ Continues B e ∨ Meets A e ∧ ∃ x, Meets B x := by
  constructor
  · rintro ⟨_, hst, he⟩
    obtain ⟨s, hs, t, ht, rfl⟩ := Language.mem_mul.mp hst
    rcases followed_append.mp he with he | he | ⟨he, hne⟩
    · exact .inl ⟨s, hs, he⟩
    · exact .inr (.inl ⟨t, ht, he⟩)
    · obtain ⟨x, hx⟩ := exists_mem_of_ne_nil t hne
      exact .inr (.inr ⟨⟨s, hs, he⟩, x, t, ht, hx⟩)
  · rintro (⟨s, hs, he⟩ | ⟨t, ht, he⟩ | ⟨⟨s, hs, he⟩, x, t, ht, hx⟩)
    · obtain ⟨t, ht⟩ := hB
      exact ⟨s ++ t, Language.append_mem_mul hs ht, followed_append.mpr (.inl he)⟩
    · obtain ⟨s, hs⟩ := hA
      exact ⟨s ++ t, Language.append_mem_mul hs ht, followed_append.mpr (.inr (.inl he))⟩
    · exact ⟨s ++ t, Language.append_mem_mul hs ht,
        followed_append.mpr (.inr (.inr ⟨he, ne_nil_of_mem hx⟩))⟩

theorem meets_add : Meets (A + B) e ↔ Meets A e ∨ Meets B e := by
  simp only [Meets, Language.mem_add, or_and_right, exists_or]

theorem continues_add : Continues (A + B) e ↔ Continues A e ∨ Continues B e := by
  simp only [Continues, Language.mem_add, or_and_right, exists_or]

theorem meets_kstar : Meets A∗ e ↔ Meets A e := by
  constructor
  · rintro ⟨_, ht, he⟩
    obtain ⟨ts, rfl, hts⟩ := Language.mem_kstar.mp ht
    obtain ⟨t, htmem, he⟩ := mem_flatten.mp he
    exact ⟨t, hts t htmem, he⟩
  · rintro ⟨t, ht, he⟩
    exact ⟨t, Language.mem_kstar.mpr ⟨[t], by simp, by simpa using ht⟩, he⟩

theorem continues_kstar : Continues A∗ e ↔ Meets A e := by
  constructor
  · intro h
    exact meets_kstar.mp h.meets
  · rintro ⟨t, ht, he⟩
    refine ⟨t ++ t, Language.mem_kstar.mpr ⟨[t, t], by simp, by simpa using ht⟩, ?_⟩
    exact followed_append.mpr (.inr (.inr ⟨he, ne_nil_of_mem he⟩))

end Algebra

/-! ### Products -/

section Product

variable {L : α → Language β} {as : List α} {e : β}

theorem runs_prod (h : ∀ a ∈ as, Runs (L a)) : Runs (as.map L).prod := by
  induction as with
  | nil => exact runs_one
  | cons a as ih =>
    rw [forall_mem_cons] at h
    rw [map_cons, prod_cons]
    exact h.1.mul (ih h.2)

theorem meets_prod (h : ∀ a ∈ as, Runs (L a)) :
    Meets (as.map L).prod e ↔ ∃ a ∈ as, Meets (L a) e := by
  induction as with
  | nil => simp [not_meets_one]
  | cons a as ih =>
    rw [forall_mem_cons] at h
    rw [map_cons, prod_cons, meets_mul h.1 (runs_prod h.2), ih h.2]
    simp only [mem_cons, exists_eq_or_imp]

/-- In a product an event is followed inside its factor, or by an event of a later factor. -/
theorem continues_prod (h : ∀ a ∈ as, Runs (L a)) :
    Continues (as.map L).prod e ↔ (∃ a ∈ as, Continues (L a) e) ∨
      ∃ front a back, as = front ++ a :: back ∧ Meets (L a) e ∧ ∃ b ∈ back, ∃ x, Meets (L b) x := by
  induction as with
  | nil => simp [not_continues_one]
  | cons c as ih =>
    rw [forall_mem_cons] at h
    rw [map_cons, prod_cons, continues_mul h.1 (runs_prod h.2), ih h.2]
    simp only [meets_prod h.2, mem_cons, exists_eq_or_imp]
    constructor
    · rintro (hc | (ha | ⟨front, a, back, rfl, hmeets, hlater⟩) | ⟨hmeets, x, b, hb, hx⟩)
      · exact .inl (.inl hc)
      · exact .inl (.inr ha)
      · exact .inr ⟨c :: front, a, back, rfl, hmeets, hlater⟩
      · exact .inr ⟨[], c, as, rfl, hmeets, b, hb, x, hx⟩
    · rintro ((hc | ha) | ⟨front, a, back, heq, hmeets, b, hb, x, hx⟩)
      · exact .inl hc
      · exact .inr (.inl (.inl ha))
      · cases front with
        | nil =>
          obtain ⟨rfl, rfl⟩ := List.cons.inj heq
          exact .inr (.inr ⟨hmeets, x, b, hb, hx⟩)
        | cons f front =>
          obtain ⟨rfl, rfl⟩ := List.cons.inj heq
          exact .inr (.inl (.inr ⟨front, a, back, rfl, hmeets, b, hb, x, hx⟩))

end Product

/-! ### Schedules -/

/-- In what order parts are evaluated, and how often. -/
inductive Schedule (α : Type) where
  | done
  | part (a : α)
  | seq (first second : Schedule α)
  | choice (left right : Schedule α)
  | repeated (body : Schedule α)
  | anyOrder (parts : List α)

namespace Schedule

def inOrder : List α → Schedule α
  | [] => done
  | a :: as => seq (part a) (inOrder as)

/-- The parts that are evaluated in some run. -/
def parts : Schedule α → List α
  | done => []
  | part a => [a]
  | seq s t | choice s t => s.parts ++ t.parts
  | repeated s => s.parts
  | anyOrder as => as

/-- The traces of the whole, given those of the parts. -/
def language (L : α → Language β) : Schedule α → Language β
  | done => 1
  | part a => L a
  | seq s t => s.language L * t.language L
  | choice s t => s.language L + t.language L
  | repeated s => (s.language L)∗
  | anyOrder as => {t | ∃ order : List α, order.Perm as ∧ t ∈ (order.map L).prod}

/-- The part `b` is evaluated after the part `a` in some run. -/
def After (a b : α) : Schedule α → Prop
  | done | part _ => False
  | seq s t => s.After a b ∨ t.After a b ∨ a ∈ s.parts ∧ b ∈ t.parts
  | choice s t => s.After a b ∨ t.After a b
  | repeated s => a ∈ s.parts ∧ b ∈ s.parts
  | anyOrder as => ∃ rest, as.Perm (a :: b :: rest)

@[simp] theorem parts_inOrder (as : List α) : (inOrder as).parts = as := by
  induction as with
  | nil => rfl
  | cons a as ih => simp [inOrder, parts, ih]

theorem after_inOrder {a b : α} {as : List α} :
    (inOrder as).After a b ↔ ∃ front back, as = front ++ a :: back ∧ b ∈ back := by
  induction as with
  | nil => simp [inOrder, After]
  | cons c as ih =>
    simp only [inOrder, After, false_or, ih, parts, parts_inOrder, mem_singleton]
    constructor
    · rintro (⟨front, back, rfl, hb⟩ | ⟨rfl, hb⟩)
      · exact ⟨c :: front, back, rfl, hb⟩
      · exact ⟨[], as, rfl, hb⟩
    · rintro ⟨front, back, heq, hb⟩
      cases front with
      | nil =>
        obtain ⟨rfl, rfl⟩ := List.cons.inj heq
        exact .inr ⟨rfl, hb⟩
      | cons f front =>
        obtain ⟨rfl, rfl⟩ := List.cons.inj heq
        exact .inl ⟨front, back, rfl, hb⟩

theorem After.mem_parts {s : Schedule α} {a b : α} (h : s.After a b) : a ∈ s.parts ∧ b ∈ s.parts := by
  induction s with
  | done | part => cases h
  | seq s t ihs iht =>
    rcases h with h | h | ⟨ha, hb⟩
    · simp [parts, ihs h]
    · simp [parts, iht h]
    · simp [parts, ha, hb]
  | choice s t ihs iht =>
    rcases h with h | h
    · simp [parts, ihs h]
    · simp [parts, iht h]
  | repeated s => exact h
  | anyOrder as =>
    obtain ⟨rest, hperm⟩ := h
    simp [parts, hperm.mem_iff]

/-- Parts in any order are listed once. -/
def Distinct : Schedule α → Prop
  | done | part _ => True
  | seq s t | choice s t => s.Distinct ∧ t.Distinct
  | repeated s => s.Distinct
  | anyOrder as => as.Nodup

/-- The parts that may be evaluated after the one that passes the test. -/
def after (isPart : α → Bool) : Schedule α → List α
  | done | part _ => []
  | seq s t => s.after isPart ++ t.after isPart ++ if s.parts.any isPart then t.parts else []
  | choice s t => s.after isPart ++ t.after isPart
  | repeated s => if s.parts.any isPart then s.parts else []
  | anyOrder as => if as.any isPart then as.filter (!isPart ·) else []

theorem distinct_inOrder (as : List α) : (inOrder as).Distinct := by
  induction as with
  | nil => trivial
  | cons a as ih => exact ⟨trivial, ih⟩

theorem after_anyOrder {a b : α} {as : List α} (h : as.Nodup) :
    (anyOrder as).After a b ↔ a ∈ as ∧ b ∈ as ∧ b ≠ a := by
  constructor
  · rintro ⟨rest, hperm⟩
    have hnodup := hperm.nodup_iff.mp h
    refine ⟨hperm.mem_iff.mpr (by simp), hperm.mem_iff.mpr (by simp), ?_⟩
    rintro rfl
    simp at hnodup
  · rintro ⟨ha, hb, hne⟩
    obtain ⟨front, back, rfl⟩ := append_of_mem ha
    have hb : b ∈ front ++ back := by simpa [hne] using hb
    obtain ⟨left, right, hsplit⟩ := append_of_mem hb
    refine ⟨left ++ right, perm_middle.trans (.cons a ?_)⟩
    rw [hsplit]
    exact perm_middle

/-- The parts that are computed to follow `a` are those that can follow it. -/
theorem mem_after_iff {s : Schedule α} {isPart : α → Bool} {a b : α} (h : s.Distinct)
    (hpart : ∀ x ∈ s.parts, isPart x = true ↔ x = a) : b ∈ s.after isPart ↔ s.After a b := by
  have hany : ∀ as : List α, (∀ x ∈ as, isPart x = true ↔ x = a) →
      (as.any isPart = true ↔ a ∈ as) := by
    intro as has
    rw [any_eq_true]
    constructor
    · rintro ⟨x, hx, htest⟩
      exact (has x hx).mp htest ▸ hx
    · intro ha
      exact ⟨a, ha, (has a ha).mpr rfl⟩
  -- each test for a part of `s` is a test for `a` there
  induction s with
  | done | part => simp [after, After]
  | seq s t ihs iht =>
    rw [parts, forall_mem_append] at hpart
    have hleft : b ∈ s.after isPart ↔ s.After a b := ihs h.1 hpart.1
    have hright : b ∈ t.after isPart ↔ t.After a b := iht h.2 hpart.2
    rw [after, After, mem_append, mem_append, hleft, hright, or_assoc, ← hany s.parts hpart.1]
    split <;> simp [*]
  | choice s t ihs iht =>
    rw [parts, forall_mem_append] at hpart
    rw [after, After, mem_append]
    exact or_congr (ihs h.1 hpart.1) (iht h.2 hpart.2)
  | repeated s =>
    rw [after, After, ← hany s.parts hpart]
    split <;> simp [*]
  | anyOrder as =>
    rw [after, after_anyOrder h, ← hany as hpart]
    split
    · next ha =>
      rw [mem_filter, Bool.not_eq_true', ← Bool.not_eq_true]
      simp only [ha, true_and]
      exact and_congr_right fun hb => not_congr (hpart b hb)
    · next ha => simp [ha]

section Language

variable {L M : α → Language β} {s : Schedule α} {e : β}

theorem language_congr (h : ∀ a ∈ s.parts, L a = M a) : s.language L = s.language M := by
  induction s with
  | done => rfl
  | part a => exact h a mem_cons_self
  | seq s t ihs iht | choice s t ihs iht =>
    rw [parts, forall_mem_append] at h
    rw [language, language, ihs h.1, iht h.2]
  | repeated s ih => rw [language, language, ih h]
  | anyOrder as =>
    refine Set.ext fun t => exists_congr fun order => and_congr_right fun hperm => ?_
    rw [map_congr_left fun a ha => h a (hperm.mem_iff.mp ha)]

theorem runs_language (h : ∀ a ∈ s.parts, Runs (L a)) : Runs (s.language L) := by
  induction s with
  | done => exact runs_one
  | part a => exact h a mem_cons_self
  | seq s t ihs iht =>
    rw [parts, forall_mem_append] at h
    exact (ihs h.1).mul (iht h.2)
  | choice s t ihs iht =>
    rw [parts, forall_mem_append] at h
    exact (ihs h.1).add
  | repeated s => exact runs_kstar _
  | anyOrder as =>
    obtain ⟨t, ht⟩ := runs_prod h
    exact ⟨t, as, .refl as, ht⟩

/-- A schedule meets an event just if one of its parts does. -/
theorem meets_language (h : ∀ a ∈ s.parts, Runs (L a)) :
    Meets (s.language L) e ↔ ∃ a ∈ s.parts, Meets (L a) e := by
  induction s with
  | done => simp [language, parts, not_meets_one]
  | part a => simp [language, parts]
  | seq s t ihs iht =>
    rw [parts, forall_mem_append] at h
    rw [language, meets_mul (runs_language h.1) (runs_language h.2), ihs h.1, iht h.2]
    simp only [parts, mem_append, or_and_right, exists_or]
  | choice s t ihs iht =>
    rw [parts, forall_mem_append] at h
    rw [language, meets_add, ihs h.1, iht h.2]
    simp only [parts, mem_append, or_and_right, exists_or]
  | repeated s ih => rw [language, meets_kstar, ih h, parts]
  | anyOrder as =>
    constructor
    · rintro ⟨t, ⟨order, hperm, ht⟩, he⟩
      have horder : ∀ a ∈ order, Runs (L a) := fun a ha => h a (hperm.mem_iff.mp ha)
      obtain ⟨a, ha, hmeets⟩ := (meets_prod horder).mp ⟨t, ht, he⟩
      exact ⟨a, hperm.mem_iff.mp ha, hmeets⟩
    · intro hmeets
      obtain ⟨t, ht, he⟩ := (meets_prod h).mpr hmeets
      exact ⟨t, ⟨as, .refl as, ht⟩, he⟩

/-- In the whole an event is followed inside its part, or by an event of a part that may come
    after that one. -/
theorem continues_language (h : ∀ a ∈ s.parts, Runs (L a)) :
    Continues (s.language L) e ↔ (∃ a ∈ s.parts, Continues (L a) e) ∨
      ∃ a b, s.After a b ∧ Meets (L a) e ∧ ∃ x, Meets (L b) x := by
  induction s with
  | done => simp [language, parts, After, not_continues_one]
  | part a => simp [language, parts, After]
  | seq s t ihs iht =>
    rw [parts, forall_mem_append] at h
    rw [language, continues_mul (runs_language h.1) (runs_language h.2), ihs h.1, iht h.2,
      meets_language h.1]
    simp only [meets_language h.2, parts, After, mem_append]
    grind
  | choice s t ihs iht =>
    rw [parts, forall_mem_append] at h
    rw [language, continues_add, ihs h.1, iht h.2]
    simp only [parts, After, mem_append]
    grind
  | repeated s =>
    -- Nothing of how events follow one another inside a round matters: the next round comes anyway.
    rw [parts] at h ⊢
    rw [language, continues_kstar, meets_language h]
    constructor
    · rintro ⟨a, ha, hmeets⟩
      exact .inr ⟨a, a, ⟨ha, ha⟩, hmeets, e, hmeets⟩
    · rintro (⟨a, ha, hcont⟩ | ⟨a, b, ⟨ha, -⟩, hmeets, -⟩)
      · exact ⟨a, ha, hcont.meets⟩
      · exact ⟨a, ha, hmeets⟩
  | anyOrder as =>
    constructor
    · rintro ⟨t, ⟨order, hperm, ht⟩, he⟩
      have horder : ∀ a ∈ order, Runs (L a) := fun a ha => h a (hperm.mem_iff.mp ha)
      rcases (continues_prod horder).mp ⟨t, ht, he⟩ with
        ⟨a, ha, hcont⟩ | ⟨front, a, back, rfl, hmeets, b, hb, hlater⟩
      · exact .inl ⟨a, hperm.mem_iff.mp ha, hcont⟩
      · obtain ⟨left, right, rfl⟩ := append_of_mem hb
        refine .inr ⟨a, b, ⟨front ++ (left ++ right), hperm.symm.trans ?_⟩, hmeets, hlater⟩
        -- `a` and `b` are moved to the front, one after the other.
        refine perm_middle.trans (.cons a ?_)
        rw [← append_assoc, ← append_assoc]
        exact perm_middle
    · intro hcont
      have hfollowed : ∃ order : List α, order.Perm as ∧ Continues (order.map L).prod e := by
        rcases hcont with hcont | ⟨a, b, ⟨rest, hperm⟩, hmeets, hlater⟩
        · exact ⟨as, .refl as, (continues_prod h).mpr (.inl hcont)⟩
        · have horder : ∀ c ∈ a :: b :: rest, Runs (L c) := fun c hc => h c (hperm.mem_iff.mpr hc)
          exact ⟨a :: b :: rest, hperm.symm, (continues_prod horder).mpr
            (.inr ⟨[], a, b :: rest, rfl, hmeets, b, mem_cons_self, hlater⟩)⟩
      obtain ⟨order, hperm, t, ht, he⟩ := hfollowed
      exact ⟨t, ⟨order, hperm, ht⟩, he⟩

end Language

end Schedule

end Cppward.Evaluation
