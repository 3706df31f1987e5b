import Cppward.Proofs.Target.Reading

namespace Cppward.Target

open List

/-!
# What can be read

Every expression that the reader finds is regular: a member is selected by its name, and only the
binary operators of the language join operands.  The reader keeps this up token by token
(`State.IsRegular.step`), hence over every text (`isRegular_of_read`).
-/

variable {r : Reading} {c : Chain} {q : Progress} {f : Frame} {t : Token}

mutual
/-- Members are names, and operators between operands are binary. -/
def Reading.isRegular : Reading → Bool
  | .name _ => true
  | .prefixed _ arg => arg.isRegular
  | .infixed op lhs rhs => (precedences.lookup op).isSome && lhs.isRegular && rhs.isRegular
  | .member target (.name _) => target.isRegular
  | .member _ _ => false
  | .index target place => target.isRegular && place.isRegular
  | .applied func args => func.isRegular && isRegularList args

def isRegularList : List Reading → Bool
  | [] => true
  | r :: rs => r.isRegular && isRegularList rs
end

theorem isRegularList_iff {rs : List Reading} :
    isRegularList rs = true ↔ ∀ r ∈ rs, r.isRegular = true := by
  induction rs with
  | nil => simp [isRegularList]
  | cons r rs ih => simp [isRegularList, ih]

theorem isRegular_signed {signs : List String} (h : r.isRegular = true) :
    (signed signs r).isRegular = true := by
  induction signs with
  | nil => exact h
  | cons s signs ih => exact ih

theorem isRegular_call {func : Reading} {args : List Reading} (hfunc : func.isRegular = true)
    (hargs : ∀ r ∈ args, r.isRegular = true) : (call func args).isRegular = true := by
  unfold call
  split
  · simpa using hargs
  · simpa [Reading.isRegular] using hargs
  · simp [Reading.isRegular, hfunc, isRegularList_iff.mpr hargs]

namespace Chain

/-- The operands are regular, and the operators between them binary. -/
def IsRegular : Chain → Prop
  | leaf r => r.isRegular = true
  | node op lhs rhs => (precedences.lookup op).isSome = true ∧ lhs.IsRegular ∧ rhs.IsRegular

theorem IsRegular.extend (hc : c.IsRegular) {op : String}
    (hop : (precedences.lookup op).isSome = true) (hr : r.isRegular = true) :
    (c.extend op r).IsRegular := by
  induction c with
  | leaf x => exact ⟨hop, hc, hr⟩
  | node outer lhs rhs _ ih =>
    rw [Chain.extend]
    split
    · exact ⟨hc.1, hc.2.1, ih hc.2.2⟩
    · exact ⟨hop, hc, hr⟩

theorem IsRegular.reading (hc : c.IsRegular) : c.reading.isRegular = true := by
  induction c with
  | leaf x => exact hc
  | node op lhs rhs hl hr =>
    simp only [Chain.reading, Reading.isRegular, hc.1, hl hc.2.1, hr hc.2.2, Bool.and_self]

theorem isRegular_ofOperands {first : Reading} {more : List (String × Reading)}
    (hfirst : first.isRegular = true)
    (hmore : ∀ o ∈ more, (precedences.lookup o.1).isSome = true ∧ o.2.isRegular = true) :
    (ofOperands first more).IsRegular := by
  induction more using List.reverseRecOn with
  | nil => exact hfirst
  | append_singleton more o ih =>
    rw [ofOperands_concat]
    have ho := hmore o (by simp)
    exact (ih fun x hx => hmore x (mem_append_left _ hx)).extend ho.1 ho.2

end Chain

/-- Operands that are regular, each with a binary operator after it. -/
def AreRegular (done : List (Reading × String)) : Prop :=
  ∀ d ∈ done, d.1.isRegular = true ∧ (precedences.lookup d.2).isSome = true

theorem isRegular_group {done : List (Reading × String)} {last : Reading} (hdone : AreRegular done)
    (hlast : last.isRegular = true) : (group done last).isRegular = true := by
  have hspread : (spread done last).1.isRegular = true ∧ ∀ o ∈ (spread done last).2,
      (precedences.lookup o.1).isSome = true ∧ o.2.isRegular = true := by
    induction done with
    | nil => simpa [spread] using hlast
    | cons d done ih =>
      obtain ⟨hfirst, hmore⟩ := ih fun x hx => hdone x (mem_cons_of_mem d hx)
      have hd := hdone d mem_cons_self
      simp only [spread, mem_cons, forall_eq_or_imp]
      exact ⟨hd.1, ⟨hd.2, hfirst⟩, hmore⟩
  exact (Chain.isRegular_ofOperands hspread.1 hspread.2).reading

/-! ### The reader -/

def Slot.IsRegular : Slot → Prop
  | .empty => True
  | .full r | .selecting r => r.isRegular = true

structure Progress.IsRegular (p : Progress) : Prop where
  done : AreRegular p.done
  slot : p.slot.IsRegular

structure Frame.IsRegular (f : Frame) : Prop where
  outer : f.outer.IsRegular
  func : ∀ r ∈ f.func, r.isRegular = true
  args : ∀ r ∈ f.args, r.isRegular = true

def State.IsRegular : State → Prop
  | .expression frames p | .template frames p _ _ => (∀ f ∈ frames, f.IsRegular) ∧ p.IsRegular

theorem Progress.isRegular_start : Progress.start.IsRegular := ⟨by simp [AreRegular, start], trivial⟩

theorem Progress.IsRegular.reading? {p : Progress} (h : p.IsRegular)
    (hr : p.reading? = some r) : r.isRegular = true := by
  obtain ⟨done, signs, slot⟩ := p
  cases slot with
  | full x =>
    cases hr
    exact isRegular_group h.done (isRegular_signed h.slot)
  | empty => cases hr
  | selecting x => cases hr

theorem Progress.IsRegular.word {p q : Progress} (h : p.IsRegular) {s : String}
    (hq : p.word s = some q) : q.IsRegular := by
  obtain ⟨done, signs, slot⟩ := p
  cases slot with
  | empty =>
    cases hq
    exact ⟨h.done, rfl⟩
  | selecting target =>
    cases hq
    exact ⟨h.done, h.slot⟩
  | full r => cases hq

/-- An operator keeps the progress regular. -/
theorem Progress.IsRegular.op {p : Progress} (h : p.IsRegular) {s : String}
    (hq : p.op s = some q) : q.IsRegular := by
  obtain ⟨done, signs, slot⟩ := p
  unfold Progress.op at hq
  cases slot with
  | empty =>
    simp only [Option.ite_none_right_eq_some, Option.some.injEq] at hq
    obtain ⟨-, rfl⟩ := hq
    exact ⟨h.done, trivial⟩
  | selecting target => cases hq
  | full r =>
    dsimp only at hq
    split at hq
    · cases hq
      exact ⟨h.done, h.slot⟩
    · split at hq
      · rename_i hop
        cases hq
        refine ⟨fun d hd => ?_, trivial⟩
        rcases mem_append.mp hd with hd | hd
        · exact h.done d hd
        · obtain rfl := mem_singleton.mp hd
          exact ⟨isRegular_signed h.slot, hop⟩
      · cases hq

theorem Frame.IsRegular.args_concat {p : Progress} (hf : f.IsRegular) (hp : p.IsRegular)
    (hr : p.reading? = some r) : ∀ x ∈ f.args ++ [r], x.isRegular = true := by
  intro x hx
  rcases mem_append.mp hx with hx | hx
  · exact hf.args x hx
  · obtain rfl := mem_singleton.mp hx
    exact hp.reading? hr

theorem Frame.IsRegular.close {p : Progress} (hf : f.IsRegular) (hp : p.IsRegular)
    (hq : f.close p = some q) : q.IsRegular := by
  unfold Frame.close at hq
  split at hq
  · rename_i r _ hr
    cases hq
    exact ⟨hf.outer.done, hp.reading? hr⟩
  · rename_i func r hfunc hr
    cases hq
    exact ⟨hf.outer.done, isRegular_call (hf.func func hfunc) (hf.args_concat hp hr)⟩
  · rename_i func hfunc _
    split at hq
    · cases hq
      exact ⟨hf.outer.done, isRegular_call (hf.func func hfunc) (by simp)⟩
    · cases hq
  · cases hq

section Step

variable {frames : List Frame} {p : Progress} {s' : State}

/-- An opening bracket keeps the state regular. -/
theorem isRegular_opening (hframes : ∀ f ∈ frames, f.IsRegular) (hp : p.IsRegular) {b : Bracket}
    (hs : stepExpression frames p (.opening b) = some s') : s'.IsRegular := by
  have hslot := hp.slot
  cases hcase : p.slot with
  | empty =>
    cases b with
    | curly => simp [stepExpression, hcase] at hs
    | round =>
      simp only [stepExpression, hcase, Option.some.injEq] at hs
      subst hs
      exact ⟨forall_mem_cons.mpr ⟨⟨hp, by simp, by simp⟩, hframes⟩, Progress.isRegular_start⟩
  | full func =>
    -- The operand in the slot is called: it becomes part of the frame.
    have hfunc : func.isRegular = true := by
      rw [hcase] at hslot
      exact hslot
    simp only [stepExpression, hcase, Option.some.injEq] at hs
    subst hs
    exact ⟨forall_mem_cons.mpr ⟨⟨hp, by simpa using hfunc, by simp⟩, hframes⟩,
      Progress.isRegular_start⟩
  | selecting target => simp [stepExpression, hcase] at hs

/-- Every token keeps the state regular. -/
theorem isRegular_stepExpression (hframes : ∀ f ∈ frames, f.IsRegular) (hp : p.IsRegular)
    (hs : stepExpression frames p t = some s') : s'.IsRegular := by
  -- frames change at brackets and commas only
  cases t with
  | blank =>
    cases hs
    exact ⟨hframes, hp⟩
  | word w =>
    obtain ⟨q, hq, rfl⟩ := Option.map_eq_some_iff.mp hs
    exact ⟨hframes, hp.word hq⟩
  | op o =>
    obtain ⟨q, hq, rfl⟩ := Option.map_eq_some_iff.mp hs
    exact ⟨hframes, hp.op hq⟩
  | opening b => exact isRegular_opening hframes hp hs
  | closing b =>
    cases frames with
    | nil => cases hs
    | cons f frames =>
      obtain ⟨hf, hframes⟩ := forall_mem_cons.mp hframes
      simp only [stepExpression] at hs
      split at hs
      · obtain ⟨q, hq, rfl⟩ := Option.map_eq_some_iff.mp hs
        exact ⟨hframes, hf.close hp hq⟩
      · cases hs
  | comma =>
    cases frames with
    | nil => cases hs
    | cons f frames =>
      obtain ⟨hf, hframes⟩ := forall_mem_cons.mp hframes
      simp only [stepExpression] at hs
      split at hs
      · obtain ⟨r, hr, rfl⟩ := Option.map_eq_some_iff.mp hs
        exact ⟨forall_mem_cons.mpr ⟨⟨hf.outer, hf.func, hf.args_concat hp hr⟩, hframes⟩,
          Progress.isRegular_start⟩
      · cases hs
  | angle =>
    simp only [stepExpression] at hs
    split at hs
    · split at hs <;> cases hs
      exact ⟨hframes, hp⟩
    · cases hs

/-- In a template nothing is read but the name of a class, which ends it. -/
theorem isRegular_stepTemplate (hframes : ∀ f ∈ frames, f.IsRegular) (hp : p.IsRegular) {depth : Nat}
    {made : Option String} (hs : stepTemplate frames p depth made t = some s') : s'.IsRegular := by
  cases t with
  | word _ | opening _ | blank =>
    cases hs
    exact ⟨hframes, hp⟩
  | closing _ | comma | angle =>
    simp only [stepTemplate] at hs
    split at hs <;> cases hs
    exact ⟨hframes, hp⟩
  | op o =>
    simp only [stepTemplate] at hs
    split at hs
    · cases hs
      exact ⟨hframes, hp⟩
    · split at hs <;> cases hs
      exact ⟨hframes, hp.done, rfl⟩
    · cases hs

end Step

theorem State.IsRegular.step {s s' : State} (h : s.IsRegular) {t : Token}
    (hs : Target.step s t = some s') : s'.IsRegular := by
  cases s with
  | expression frames p => exact isRegular_stepExpression h.1 h.2 hs
  | template frames p depth made => exact isRegular_stepTemplate h.1 h.2 hs

theorem State.IsRegular.run {s s' : State} (h : s.IsRegular) {ts : List Token}
    (hs : Target.run s ts = some s') : s'.IsRegular := by
  induction ts generalizing s with
  | nil =>
    cases hs
    exact h
  | cons t ts ih =>
    rw [run_cons] at hs
    obtain ⟨s₁, hstep, hrest⟩ := Option.bind_eq_some_iff.mp hs
    exact ih (h.step hstep) hrest

/-- Whatever text is read, the expression is regular. -/
theorem isRegular_of_read {code : String} (h : read code = some r) : r.isRegular = true := by
  unfold read at h
  obtain ⟨tokens, -, h⟩ := Option.bind_eq_some_iff.mp h
  obtain ⟨s, hrun, h⟩ := Option.bind_eq_some_iff.mp h
  have hs : s.IsRegular :=
    State.IsRegular.run (s := .expression [] .start) ⟨by simp, Progress.isRegular_start⟩ hrun
  split at h
  · exact hs.2.reading? h
  · cases h

end Cppward.Target
