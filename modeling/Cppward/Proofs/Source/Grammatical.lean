import Cppward.Proofs.Grammar.Yield
import Cppward.Proofs.Source.Namespace
import Cppward.Source.Read

namespace Cppward.Source

open Grammar List Node

/-!
# Modules are grammatical

What happens to a tree after the grammar has built it, the removal of marks and the placement in a
namespace, leaves it grammatical.

* `grammatical_unwrap` — without marks,
* `grammatical_expandNamespace` — in a namespace,
* `grammatical_of_readModule` — every module that is read is grammatical.
-/

variable {n module placed : Node} {ns : List Node} {source : String}

/-! ### Marks -/

theorem unwrapOption_eq (o : Option Node) : unwrapOption o = o.map (unwrap false) := by
  cases o <;> rfl

theorem unwrapList_eq (ns : List Node) : unwrapList ns = ns.map (unwrap false) := by
  induction ns with
  | nil => rfl
  | cons n ns ih => rw [unwrapList, ih, map_cons]

theorem unwrap_of_ne_wrapper (inside : Bool) (h : n.kind ≠ .wrapper) : unwrap inside n =
      { n with func := n.func.map (unwrap false), args := n.args.map (unwrap false) } := by
  obtain ⟨info, kind, func, args, type⟩ := n
  rw [← unwrapOption_eq, ← unwrapList_eq]
  cases kind with
  | wrapper => exact absurd rfl h
  | _ => rfl

/-- Unwrapping keeps a tree grammatical. -/
theorem grammatical_unwrap (h : n.Grammatical) (inside : Bool) : (unwrap inside n).Grammatical := by
  induction h generalizing inside with
  | @make kind func args loc hkind _ _ ihfunc ihargs =>
    have hargs : AllGrammatical (args.map (unwrap false)) :=
      forall_mem_map.mpr fun a ha => ihargs a ha false
    by_cases hwrapper : kind = .wrapper
    · subst hwrapper
      cases inside with
      | true =>
        -- a mark inside a mark stands for parentheses
        change (make .parens none (unwrapList args) loc).Grammatical
        rw [unwrapList_eq]
        refine .make ?_ nofun hargs
        rw [length_map]
        exact ⟨rfl, hkind.2⟩
      | false =>
        cases args with
        | nil => cases hkind.2
        | cons a args => exact ihargs a mem_cons_self true
    · rw [unwrap_of_ne_wrapper (n := make kind func args loc) inside hwrapper]
      refine .make ?_ ?_ hargs
      · rw [Option.isSome_map, length_map]
        exact hkind
      · intro f hf
        obtain ⟨g, hg, rfl⟩ := Option.map_eq_some_iff.mp hf
        exact ihfunc g hg false

/-! ### Namespaces -/

theorem grammatical_ofModule (h : AllGrammatical ns) :
    (ofModule ns).Grammatical := .make rfl nofun h

theorem grammatical_namespaceCall {name : Node} {inside : List Node} (hname : name.Grammatical)
    (hinside : AllGrammatical inside) : (namespaceCall name inside).Grammatical := by
  have hident : (ident "namespace").Grammatical :=
    .make ⟨by unfold IsWord; decide, rfl, rfl⟩ nofun nofun
  have hblock : (ofBlock inside).Grammatical := .make rfl nofun hinside
  exact grammatical_applied ⟨rfl, rfl⟩ hident
    (forall_mem_cons.mpr ⟨hname, forall_mem_singleton.mpr hblock⟩)

theorem grammatical_expandNamespace (hmodule : module.Grammatical)
    (h : expandNamespace module = .ok placed) : placed.Grammatical := by
  rcases expandNamespace_cases h with
    ⟨rfl, -⟩ | ⟨before, statement, after, name, hargs, -, hname, rfl⟩
  · exact hmodule
  have hall := hmodule.args
  rw [hargs, forall_mem_append, forall_mem_cons] at hall
  obtain ⟨hbefore, hstatement, hafter⟩ := hall
  have hname : name.Grammatical := hstatement.args name (hname ▸ mem_cons_self)
  refine grammatical_ofModule (forall_mem_append.mpr ⟨fun n hn => ?_, ?_⟩)
  · exact hbefore n (mem_of_mem_filter hn)
  · exact forall_mem_singleton.mpr
      (grammatical_namespaceCall hname fun n hn => hafter n (mem_of_mem_filter hn))

theorem isModule_expandNamespace (hmodule : module.isModule = true)
    (h : expandNamespace module = .ok placed) : placed.isModule = true := by
  rcases expandNamespace_cases h with ⟨rfl, -⟩ | ⟨_, _, _, _, -, -, -, rfl⟩
  · exact hmodule
  · rfl

/-! ### Texts -/

theorem grammatical_readBlock {text : List Char} (h : readBlock text = .ok ns) :
    AllGrammatical ns := by
  unfold readBlock at h
  extract_lets text at h
  split at h
  · cases h
  · cases h
  · next nodes c hread =>
    cases h
    exact yields_statements _ _ ns c (by rw [hread])

/-- Whatever is read from blocks is grammatical. -/
theorem grammatical_readBlocks {blocks : List Layout.Block}
    (h : readBlocks blocks = .ok ns) : AllGrammatical ns := by
  induction blocks generalizing ns with
  | nil =>
    cases h
    exact nofun
  | cons b bs ih =>
    unfold readBlocks at h
    split at h
    · exact ih h
    · cases hb : readBlock b.text with
      | error e =>
        rw [hb] at h
        cases h
      | ok first =>
        cases hbs : readBlocks bs with
        | error e =>
          rw [hb, hbs] at h
          cases h
        | ok rest =>
          rw [hb, hbs] at h
          cases h
          exact forall_mem_append.mpr ⟨grammatical_readBlock hb, ih hbs⟩

/-- A module is made of the trees that the grammar has built. -/
theorem exists_of_readModule (h : readModule source = .ok module) :
    ∃ nodes, (ofModule nodes).Grammatical ∧
      expandNamespace (unwrap false (ofModule nodes)) = .ok module := by
  unfold readModule at h
  split at h
  · cases h
  · next laidOut hlayout =>
    cases hblocks : readBlocks laidOut.blocks with
    | error e =>
      rw [hblocks] at h
      cases h
    | ok nodes =>
      rw [hblocks] at h
      dsimp only [bind, Except.bind] at h
      split at h
      · cases h
      · next placed hplaced =>
        cases h
        exact ⟨nodes, grammatical_ofModule (grammatical_readBlocks hblocks), hplaced⟩

/-- **Modules are grammatical.** -/
theorem grammatical_of_readModule
    (h : readModule source = .ok module) : module.Grammatical ∧ module.isModule = true := by
  obtain ⟨nodes, hnodes, hplaced⟩ := exists_of_readModule h
  exact ⟨grammatical_expandNamespace (grammatical_unwrap hnodes false) hplaced,
    isModule_expandNamespace rfl hplaced⟩

end Cppward.Source
