import Cppward.Analysis.Safety
import Cppward.Proofs.Stateful

namespace Cppward.Analysis

open Stateful

/-!
# What the safety checks change

The checks rewrite a tree in two places: the container of a loop may be wrapped, and `unsafe(...)`
becomes a branch.  Every other node gets its rewritten parts.

* `wrapIterable_eq_ok`, `checkLoop_cases` — the head of a loop.
* `expandUnsafe_cases` — `unsafe(...)`.
* `checkSafetyTo_cases` — one level of a tree.
-/

variable {p q : Program} {n r : Node}

theorem nodes_linkWrapped (p : Program) (iterable copy wrapped : Node) :
    (linkWrapped p iterable copy wrapped).nodes = p.nodes := rfl

theorem root_linkWrapped (p : Program) (iterable copy wrapped : Node) :
    (linkWrapped p iterable copy wrapped).root = p.root := rfl

theorem wrapIterable_eq_ok {head target iterable : Node}
    (h : (wrapIterable head target iterable).run p = .ok (r, q)) :
    ∃ copy p₁ wrapped p₂, p.adopt iterable.copy.unlabel = (copy, p₁) ∧
      p₁.adopt (banReferences iterable copy) = (wrapped, p₂) ∧
      r = { head with args := [target, wrapped] } ∧
      q = (linkWrapped p₂ iterable copy wrapped).update r := by
  have hrun : (wrapIterable head target iterable).run p =
      let copy := p.adopt iterable.copy.unlabel
      let wrapped := copy.2.adopt (banReferences iterable copy.1)
      let head := { head with args := [target, wrapped.1] }
      .ok (head, (linkWrapped wrapped.2 iterable copy.1 wrapped.1).update head) := rfl
  rw [hrun] at h
  have hpair := Prod.mk.inj (Except.ok.inj h)
  exact ⟨_, _, _, _, rfl, rfl, hpair.1.symm, hpair.1 ▸ hpair.2.symm⟩

theorem need_eq_ok {α : Type} {x : Option α} {a : α} (h : (Build.need x).run p = .ok (a, q)) :
    x = some a ∧ p = q := by
  cases x with
  | none => cases h
  | some b =>
    cases h
    exact ⟨rfl, rfl⟩

theorem lift_eq_ok {α : Type} {x : Except Failure α} {a : α}
    (h : (liftM x : Build α).run p = .ok (a, q)) : p = q := by
  cases x with
  | error e => cases h
  | ok b =>
    cases h
    rfl

/-- A loop stays as it is, or what it iterates over is wrapped. -/
theorem checkLoop_cases {head loop body : Node}
    (h : (checkLoop head loop body).run p = .ok (r, q)) :
    (r = head ∧ q = p) ∨ ∃ target iterable, head.args = [target, iterable] ∧
      iterable.isIdent = false ∧ (wrapIterable head target iterable).run p = .ok (r, q) := by
  rw [checkLoop, get_bind_eq_ok] at h
  split at h
  · rename_i target iterable hargs
    split at h
    · split at h
      · cases h
      · cases pure_eq_ok.mp h
        exact .inl ⟨rfl, rfl⟩
    · rename_i hident
      have hident : iterable.isIdent = false := by simpa using hident
      -- the two ways to find the aliases end in the same test
      have hlast : ∀ {l : Loop}, (do
          if !(← body.anyM (l.mayAlias p (p.nodes.size + 1))) then
            return head
          wrapIterable head target iterable : Build Node).run p = .ok (r, q) →
            (r = head ∧ q = p) ∨ ∃ target iterable, head.args = [target, iterable] ∧
              iterable.isIdent = false ∧ (wrapIterable head target iterable).run p = .ok (r, q) := by
        intro l h
        obtain ⟨found, _, hfound, h⟩ := bind_eq_ok.mp h
        obtain rfl := lift_eq_ok hfound
        split at h
        · cases pure_eq_ok.mp h
          exact .inl ⟨rfl, rfl⟩
        · exact .inr ⟨target, iterable, hargs, hident, h⟩
      split at h
      · obtain ⟨owner, _, howner, h⟩ := bind_eq_ok.mp h
        obtain ⟨_, rfl⟩ := need_eq_ok howner
        obtain ⟨scope, _, hscope, h⟩ := bind_eq_ok.mp h
        obtain ⟨_, rfl⟩ := need_eq_ok hscope
        dsimp only at h
        split at h
        · exact hlast h
        · rw [map_eq_pure_bind] at h
          obtain ⟨l, _, hl, h⟩ := bind_eq_ok.mp h
          obtain ⟨_, _, hdefs, hl⟩ := bind_eq_ok.mp hl
          obtain ⟨_, rfl⟩ := need_eq_ok hdefs
          cases pure_eq_ok.mp hl
          exact hlast h
      · exact .inr ⟨target, iterable, hargs, hident, h⟩
  · cases h

theorem expandUnsafe_cases (h : (expandUnsafe n).run p = .ok (r, q)) :
    (r = n ∧ q = p) ∨ n.isCallOf "unsafe" = true ∧ ∃ arg, n.args = [arg] ∧
      (r, q) = p.adopt (unsafeBranch (if arg.isBlock then arg.args else [arg])) := by
  rw [expandUnsafe] at h
  split at h
  · cases pure_eq_ok.mp h
    exact .inl ⟨rfl, rfl⟩
  · rename_i hcall
    have hcall : n.isCallOf "unsafe" = true := by
      cases hn : n.isCallOf "unsafe" <;> simp_all
    rw [get_bind_eq_ok] at h
    dsimp only at h
    split at h
    · cases h
    · split at h
      · rename_i arg hargs
        exact .inr ⟨hcall, arg, hargs, (Except.ok.inj h).symm⟩
      · cases h

/-- A head of a loop is checked; another node gets its checked arguments and then what it applies. -/
theorem checkSafetyTo_cases {depth : Nat} (h : (checkSafetyTo (depth + 1) n).run p = .ok (r, q)) :
    (∃ loop body, loopBody? p n = some (loop, body) ∧ (checkLoop n loop body).run p = .ok (r, q)) ∨
      loopBody? p n = none ∧ ∃ (args : List Node) (p₁ : Program) (func : Option Node) (p₂ p₃ : Program),
        (n.args.mapM (checkSafetyTo depth)).run p = .ok (args, p₁) ∧
        (n.func.toList.mapM (checkSafetyTo depth)).run
          (p₁.update { p₁.current n with args := args.map p₁.current }) = .ok (func.toList, p₂) ∧
        p₃ = p₂.update { p₂.current n with func := func.map p₂.current } ∧
        (expandUnsafe (p₃.current n)).run p₃ = .ok (r, q) := by
  rw [checkSafetyTo, get_bind_eq_ok] at h
  split at h
  · rename_i loop body hloop
    exact .inl ⟨loop, body, hloop, h⟩
  · rename_i hloop
    obtain ⟨args, p₁, hargs, h⟩ := bind_eq_ok.mp h
    rw [modify_bind_eq_ok] at h
    obtain ⟨func, p₂, hfunc, h⟩ := bind_eq_ok.mp h
    rw [modify_bind_eq_ok, get_bind_eq_ok] at h
    exact .inr ⟨hloop, args, p₁, func, p₂, _, hargs, mapMOption_eq_ok hfunc, rfl, h⟩

end Cppward.Analysis
