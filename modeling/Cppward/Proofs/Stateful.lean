import Cppward.Failure
import Mathlib.Data.List.Forall2

namespace Cppward.Stateful

/-!
# Computations with a state that may fail

* `bind_eq_ok`, `mapM_cons_eq_ok` — the parts of a run that succeeds.
* `Moves R x` — a successful run of `x` leads from a state to one that is related to it.
-/

variable {ε σ α β : Type} {s t : σ} {x : StateT σ (Except ε) α} {f : α → StateT σ (Except ε) β}
  {r : β × σ} {bs : List β}

theorem bind_eq_ok : (x >>= f).run s = .ok r ↔
    ∃ a t, x.run s = .ok (a, t) ∧ (f a).run t = .ok r := by
  show (x s >>= fun p => f p.1 p.2) = .ok r ↔ _
  cases h : x s with
  | error e => simp [bind, Except.bind, StateT.run, h]
  | ok p =>
    obtain ⟨a, t⟩ := p
    constructor
    · intro hr
      exact ⟨a, t, h, hr⟩
    · rintro ⟨a', t', hx, hr⟩
      cases h.symm.trans hx
      exact hr

theorem pure_eq_ok {a : α} {r : α × σ} :
    (pure a : StateT σ (Except ε) α).run s = .ok r ↔ r = (a, s) := by
  show Except.ok (a, s) = .ok r ↔ _
  rw [Except.ok.injEq, eq_comm]

theorem get_bind_eq_ok {f : σ → StateT σ (Except ε) β} :
    (get >>= f : StateT σ (Except ε) β).run s = .ok r ↔ (f s).run s = .ok r := Iff.rfl

theorem modify_bind_eq_ok {g : σ → σ} {f : PUnit → StateT σ (Except ε) β} :
    (modify g >>= f : StateT σ (Except ε) β).run s = .ok r ↔ (f ⟨⟩).run (g s) = .ok r := Iff.rfl

theorem mapM_nil_eq_ok : (([] : List α).mapM f).run s = .ok (bs, t) ↔ bs = [] ∧ t = s := by
  rw [List.mapM_nil, pure_eq_ok, Prod.mk.injEq]

theorem mapM_cons_eq_ok {a : α} {as : List α} :
    ((a :: as).mapM f).run s = .ok (bs, t) ↔ ∃ b s' bs', (f a).run s = .ok (b, s') ∧
      (as.mapM f).run s' = .ok (bs', t) ∧ bs = b :: bs' := by
  simp only [List.mapM_cons, bind_eq_ok, pure_eq_ok, Prod.mk.injEq]
  constructor
  · rintro ⟨b, s', hb, bs', t', hbs, rfl, rfl⟩
    exact ⟨b, s', bs', hb, hbs, rfl⟩
  · rintro ⟨b, s', bs', hb, hbs, rfl⟩
    exact ⟨b, s', hb, bs', t, hbs, rfl, rfl⟩

theorem mapMOption_eq_ok {o : Option α} {o' : Option β}
    (h : (o.mapM f).run s = .ok (o', t)) : (o.toList.mapM f).run s = .ok (o'.toList, t) := by
  cases o with
  | none =>
    cases pure_eq_ok.mp h
    rfl
  | some a =>
    rw [Option.mapM_some, map_eq_pure_bind, bind_eq_ok] at h
    obtain ⟨b, s', hb, h⟩ := h
    cases pure_eq_ok.mp h
    exact mapM_cons_eq_ok.mpr ⟨b, _, [], hb, rfl, rfl⟩

/-! ### Related states -/

/-- Successful runs lead to states that are related to those they start from. -/
def Moves (R : σ → σ → Prop) (x : StateT σ (Except ε) α) : Prop :=
  ∀ s a t, x.run s = .ok (a, t) → R s t

namespace Moves

variable {R : σ → σ → Prop}

theorem pure (hrefl : ∀ s, R s s) (a : α) : Moves R (pure a : StateT σ (Except ε) α) := by
  intro s b t h
  cases pure_eq_ok.mp h
  exact hrefl s

theorem get (hrefl : ∀ s, R s s) : Moves R (get : StateT σ (Except ε) σ) := by
  intro s b t h
  cases h
  exact hrefl s

theorem throw (e : ε) : Moves R (throw e : StateT σ (Except ε) α) := by
  intro s b t h
  cases h

theorem modify {f : σ → σ} (hf : ∀ s, R s (f s)) :
    Moves R (modify f : StateT σ (Except ε) PUnit) := by
  intro s b t h
  cases h
  exact hf s

theorem modifyGet {f : σ → α × σ} (hf : ∀ s, R s (f s).2) :
    Moves R (modifyGet f : StateT σ (Except ε) α) := by
  intro s b t h
  have hst : f s = (b, t) := Except.ok.inj h
  have hs := hf s
  rwa [hst] at hs

theorem bind (htrans : ∀ s t u, R s t → R t u → R s u) (hx : Moves R x)
    (hf : ∀ a, Moves R (f a)) : Moves R (x >>= f) := by
  intro s b u h
  obtain ⟨a, t, ha, hb⟩ := bind_eq_ok.mp h
  exact htrans s t u (hx s a t ha) (hf a t b u hb)

theorem forM_mem (hrefl : ∀ s, R s s) (htrans : ∀ s t u, R s t → R t u → R s u)
    {f : α → StateT σ (Except ε) PUnit} {as : List α} (hf : ∀ a ∈ as, Moves R (f a)) :
    Moves R (as.forM f) := by
  induction as with
  | nil => exact pure hrefl _
  | cons a as ih =>
    rw [List.forall_mem_cons] at hf
    exact bind htrans hf.1 fun _ => ih hf.2

theorem forM (hrefl : ∀ s, R s s) (htrans : ∀ s t u, R s t → R t u → R s u)
    {f : α → StateT σ (Except ε) PUnit} (hf : ∀ a, Moves R (f a)) (as : List α) :
    Moves R (as.forM f) := forM_mem hrefl htrans fun a _ => hf a

end Moves

end Cppward.Stateful
