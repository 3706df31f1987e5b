import Cppward.Proofs.Analysis.Preparing
import Cppward.Proofs.Node.Order

namespace Cppward.Analysis

open Node List

/-!
# Naming the arguments of calls

The calls of a tree are the same before and after their arguments are named, and stand in the same
order.  So each argument can be compared with what it was.

* `named_calls_iff` — all arguments are named exactly if none needs it in what is applied.
-/

variable {n a c : Node} {inCall : Bool}

/-- The calls of a tree, in the order of a search. -/
def calls (n : Node) : List Node := n.inOrder.filter isCall

theorem calls_eq (n : Node) :
    calls n = (if n.isCall then [n] else []) ++ (n.args.flatMap calls ++ n.func.toList.flatMap calls) := by
  rw [calls, inOrder_eq, filter_cons, filter_flatMap, searched, flatMap_append]
  split <;> rfl

/-- An assignment that does not name an argument. -/
def IsAssignment (n : Node) : Prop := n.binary? = some .assign

instance : DecidablePred IsAssignment := fun n => inferInstanceAs (Decidable (n.binary? = _))

theorem isAssignment_iff : IsAssignment n ↔ ∃ op, n.kind = .binary .assign op := by
  unfold IsAssignment binary?
  split <;> simp_all

/-- Each argument of the call `c'` that is a plain assignment is, in `c`, one in parentheses. -/
def Named (c c' : Node) : Prop :=
  List.Forall₂ (fun a a' => IsAssignment a' → a.kind = .parens ∧ ∃ b ∈ a.args, IsAssignment b) c.args c'.args

instance : DecidableRel Named := fun _ _ => inferInstanceAs (Decidable (List.Forall₂ _ _ _))

/-- A call with its arguments named. -/
def nameOwn (n : Node) : Node := { n with args := n.args.map (nameArguments true) }

theorem nameArguments_false (n : Node) :
    nameArguments false n = { n with args := n.args.map (nameArguments n.isCall) } := by
  obtain ⟨info, kind, func, args, type⟩ := n
  cases kind <;> simp [nameArguments, nameArgumentsList_eq, isCall]

/-- An argument stays a plain assignment only if it is one in parentheses. -/
theorem named_nameOwn (c : Node) : Named c (nameOwn c) := by
  rw [Named, nameOwn, forall₂_map_right_iff, forall₂_same]
  rintro ⟨info, kind, func, args, type⟩ _ hplain
  unfold nameArguments at hplain
  split at hplain
  case h_5 =>
    refine ⟨rfl, ?_⟩
    cases args with
    | nil => cases hplain
    | cons b rest =>
      rw [nameContent] at hplain
      split at hplain
      · rw [nameArguments_false] at hplain
        exact ⟨b, mem_cons_self, hplain⟩
      · cases hplain
  case h_6 _ _ hassign _ _ _ =>
    obtain ⟨op, hop⟩ := isAssignment_iff.mp hplain
    exact absurd rfl (hassign op hop)
  all_goals cases hplain

/-- The operand on the left of a colon has the calls that it has elsewhere. -/
theorem calls_nameOperand (h : n.wellFormed = true) (info : Info) (op : String) :
    calls (nameOperand info op n) = calls (nameArguments false n) := by
  have hparts := ((wellFormed_iff n).mp h).1
  rw [nameArguments_false]
  obtain ⟨info', kind, func, args, type⟩ := n
  unfold nameOperand
  split <;> simp_all [calls_eq, isCall, nameArgumentsList_eq, Kind.hasParts]

/-- The calls after naming.  What is applied is left as it is. -/
theorem calls_nameArguments (h : n.wellFormed = true) (inCall : Bool) :
    calls (nameArguments inCall n) = (if n.isCall then [nameOwn n] else []) ++
      ((n.args.flatMap fun a => calls (nameArguments n.isCall a)) ++ n.func.toList.flatMap calls) := by
  have hfalse : calls (nameArguments false n) = (if n.isCall then [nameOwn n] else []) ++
      ((n.args.flatMap fun a => calls (nameArguments n.isCall a)) ++ n.func.toList.flatMap calls) := by
    rw [nameArguments_false, calls_eq, flatMap_map]
    cases hcall : n.isCall <;> simp [isCall, nameOwn] at hcall ⊢ <;> simp [hcall]
  rw [← hfalse]
  cases inCall with
  | false => rfl
  | true =>
    obtain ⟨hparts, -, hargs⟩ := (wellFormed_iff n).mp h
    rw [nameArguments_false]
    obtain ⟨info, kind, func, args, type⟩ := n
    unfold nameArguments
    split
    · simp [nameArgumentsList_eq, isCall]
    · simp_all [calls_eq, nameArgumentsList_eq, isCall, Kind.hasParts]
    · simp_all [calls_eq, nameArgumentsList_eq, isCall, Kind.hasParts]
    · cases args with
      | nil => simp [Kind.hasParts] at hparts
      | cons a rest =>
        have ha := calls_nameOperand (hargs a mem_cons_self) { info with id := 0 }
        simp_all [calls_eq ⟨_, _, _, _, _⟩, nameTyped, nameArgumentsList_eq, isCall]
    · cases args with
      | nil => simp [Kind.hasParts] at hparts
      | cons a rest =>
        rw [nameContent]
        split <;> simp_all [calls_eq ⟨_, _, _, _, _⟩, nameArgumentsList_eq, isCall, Kind.hasParts]
    · simp [nameArgumentsList_eq, isCall]

/-! ### Comparing calls -/

section Lists

variable {α β : Type} {R : α → β → Prop}

theorem forall₂_append_iff {as as' : List α} {bs bs' : List β} (h : as.length = bs.length) :
    List.Forall₂ R (as ++ as') (bs ++ bs') ↔ List.Forall₂ R as bs ∧ List.Forall₂ R as' bs' := by
  induction as generalizing bs with
  | nil =>
    obtain rfl := length_eq_zero_iff.mp h.symm
    simp
  | cons a as ih =>
    obtain ⟨b, bs, rfl⟩ := exists_cons_of_length_eq_add_one h.symm
    simp only [cons_append, forall₂_cons, ih (Nat.succ.inj h), and_assoc]

theorem forall₂_flatMap_iff {γ : Type} {f : γ → List α} {g : γ → List β} {cs : List γ}
    (h : ∀ c ∈ cs, (f c).length = (g c).length) :
    List.Forall₂ R (cs.flatMap f) (cs.flatMap g) ↔ ∀ c ∈ cs, List.Forall₂ R (f c) (g c) := by
  induction cs with
  | nil => simp
  | cons c cs ih =>
    obtain ⟨hc, hcs⟩ := forall_mem_cons.mp h
    rw [flatMap_cons, flatMap_cons, forall₂_append_iff hc, ih hcs, forall_mem_cons]

end Lists

theorem length_calls_nameArguments (n : Node) (h : n.wellFormed = true) (inCall : Bool) :
    (calls n).length = (calls (nameArguments inCall n)).length := by
  induction n using Node.induction generalizing inCall with
  | step n _ hargs _ =>
    have hwf := ((wellFormed_iff n).mp h).2.2
    have hlist : (n.args.flatMap calls).length =
        (n.args.flatMap fun a => calls (nameArguments n.isCall a)).length := by
      rw [length_flatMap, length_flatMap]
      exact congrArg List.sum (map_congr_left fun a ha => hargs a ha (hwf a ha) _)
    rw [calls_nameArguments h, calls_eq, length_append, length_append, length_append,
      length_append, hlist]
    split <;> rfl

/-- A node that naming comes to: the tree or something below it, but not in what is applied. -/
inductive ArgumentIn : (m n : Node) → Prop
  | self {n : Node} : ArgumentIn n n
  | arg {m a n : Node} (ha : a ∈ n.args) (h : ArgumentIn m a) : ArgumentIn m n

theorem forall_argumentIn_iff {P : Node → Prop} : (∀ m, ArgumentIn m n → P m) ↔
    P n ∧ ∀ a ∈ n.args, ∀ m, ArgumentIn m a → P m := by
  refine ⟨fun h => ⟨h n .self, fun a ha m hm => h m (.arg ha hm)⟩, fun ⟨hn, hargs⟩ m hm => ?_⟩
  cases hm with
  | self => exact hn
  | arg ha hm => exact hargs _ ha m hm

/-- Calls that stay as they are have no plain assignments among their arguments. -/
theorem named_self_iff : Named c c ↔ ∀ a ∈ c.args, ¬IsAssignment a := by
  rw [Named, forall₂_same]
  refine forall₂_congr fun a _ => ⟨fun h hplain => ?_, fun h hplain => absurd hplain h⟩
  obtain ⟨op, hop⟩ := isAssignment_iff.mp hplain
  rw [(h hplain).1] at hop
  cases hop

/-- **Named arguments.**  Naming keeps the calls of a tree, and of the arguments of a call only the
    assignments in parentheses stay plain assignments — exactly if the nodes that are applied, in the
    arguments that naming comes to, hold no call with a plain assignment. -/
theorem named_calls_iff (h : n.wellFormed = true) (inCall : Bool) :
    List.Forall₂ Named (calls n) (calls (nameArguments inCall n)) ↔
      ∀ m, ArgumentIn m n → ∀ f ∈ m.func, ∀ c ∈ calls f, ∀ a ∈ c.args, ¬IsAssignment a := by
  induction n using Node.induction generalizing inCall with
  | step n _ hargs _ =>
    have hwf := ((wellFormed_iff n).mp h).2.2
    have hown : List.Forall₂ Named (if n.isCall then [n] else []) (if n.isCall then [nameOwn n] else []) := by
      split
      · exact .cons (named_nameOwn n) .nil
      · exact .nil
    have hlength : ∀ a ∈ n.args, (calls a).length = (calls (nameArguments n.isCall a)).length :=
      fun a ha => length_calls_nameArguments a (hwf a ha) _
    have hfunc : List.Forall₂ Named (n.func.toList.flatMap calls) (n.func.toList.flatMap calls) ↔
        ∀ f ∈ n.func, ∀ c ∈ calls f, ∀ a ∈ c.args, ¬IsAssignment a := by
      rw [forall₂_flatMap_iff fun _ _ => rfl]
      simp only [List.forall₂_same, named_self_iff, Option.mem_toList, Option.mem_def]
    rw [calls_nameArguments h, calls_eq, forall₂_append_iff hown.length_eq,
      forall₂_append_iff (by simp only [List.length_flatMap, List.map_congr_left hlength]),
      forall₂_flatMap_iff hlength, hfunc, forall_argumentIn_iff]
    refine ⟨fun ⟨_, hin, hhere⟩ => ⟨hhere, fun a ha => (hargs a ha (hwf a ha) _).mp (hin a ha)⟩,
      fun ⟨hhere, hin⟩ => ⟨hown, fun a ha => (hargs a ha (hwf a ha) _).mpr (hin a ha), hhere⟩⟩

def assigningCall : Node := ofCall (ident "f") [ofBinary .assign "=" (ident "x") (ofDigits "1")]

/-- In `g(f(x = 1))` the argument of the inner call is named, and nothing that is applied needs it. -/
theorem named_calls_argument : (ofCall (ident "g") [assigningCall]).wellFormed = true ∧
    List.Forall₂ Named (calls (ofCall (ident "g") [assigningCall]))
      (calls (nameArguments false (ofCall (ident "g") [assigningCall]))) ∧
    ∀ m, ArgumentIn m (ofCall (ident "g") [assigningCall]) →
      ∀ f ∈ m.func, ∀ c ∈ calls f, ∀ a ∈ c.args, ¬IsAssignment a := by
  have h : (ofCall (ident "g") [assigningCall]).wellFormed = true := by decide
  have hnamed : List.Forall₂ Named (calls (ofCall (ident "g") [assigningCall]))
      (calls (nameArguments false (ofCall (ident "g") [assigningCall]))) := by decide
  exact ⟨h, hnamed, (named_calls_iff h false).mp hnamed⟩

/-- In `f(x = 1)(2)` it is not: the inner call is applied. -/
theorem not_named_calls_applied : (ofCall assigningCall [ofDigits "2"]).wellFormed = true ∧
    ¬List.Forall₂ Named (calls (ofCall assigningCall [ofDigits "2"]))
      (calls (nameArguments false (ofCall assigningCall [ofDigits "2"]))) := by
  decide

end Cppward.Analysis
