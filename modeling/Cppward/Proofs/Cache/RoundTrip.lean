import Cppward.Proofs.Cache.Reading
import Cppward.Proofs.Failing
import Cppward.Proofs.Source.Grammatical

namespace Cppward.Cache

open Text List Node

/-!
# The cache reads back what it wrote

The tree of a file is kept as a constructor expression.  Reading it builds the same tree again, with
all offsets, unless a literal holds a character that files do not keep.

* `value?_outline` — the expression of a grammatical tree builds the tree.
* `read_constructorText` — what is written for a module is read as the module.
-/

variable {vs : List Value} {n : Node} {c : Char}

/-! ### Values -/

theorem values?_of_forall₂ {ts : List Term}
    (h : List.Forall₂ (fun t v => t.value? = some v) ts vs) : values? ts = some vs := by
  induction h with
  | nil => rfl
  | cons hv _ ih => simp [values?, hv, ih]

theorem ofList?_map_node (ns : List Node) : Value.ofList? (ns.map .node) = some (.nodes ns) := by
  rw [Value.ofList?, mapM_map, Option.map_eq_some_iff]
  refine ⟨ns, ?_, rfl⟩
  induction ns with
  | nil => rfl
  | cons n ns ih => simp [ih]

theorem construct_concat_offset (name : String) (vs : List Value) (loc : Nat) :
    construct name (vs ++ [.offset loc]) = (constructNode name vs loc).map .node := by
  unfold construct
  split
  · next n hargs =>
    have hlast := congrArg List.getLast? hargs
    rw [getLast?_concat] at hlast
    cases hlast
  · rw [getLast?_concat, dropLast_concat]

def affixValue : Option Affix → Value
  | none => .nothing
  | some a => .node (Node.ident a.name a.loc)

theorem affix?_affixValue (a : Option Affix) : (affixValue a).affix? = some a := by
  cases a <;> rfl

theorem value?_offsetTerm (loc : Nat) : (offsetTerm loc).value? = some (.offset loc) := by
  simp [offsetTerm, Term.value?, values?, construct]

theorem value?_apply {name : ClassName} {args : List Outline} {loc : Nat}
    (h : List.Forall₂ (fun f v => f.term.value? = some v) args vs) :
    (Outline.apply name args loc).term.value? = (constructNode name.val vs loc).map .node := by
  have hvalues :
      values? (args.map Outline.term ++ [offsetTerm loc]) = some (vs ++ [.offset loc]) := by
    refine values?_of_forall₂ (rel_append ?_ (.cons (value?_offsetTerm loc) .nil))
    exact forall₂_map_left_iff.mpr h
  rw [Outline.term, Outline.termList_eq, Term.value?, hvalues]
  exact construct_concat_offset name.val vs loc

theorem value?_list {items : List Node} {comma : Bool}
    (h : ∀ n ∈ items, n.outline.term.value? = some (.node n)) :
    (Outline.list (items.map outline) comma).term.value? = some (.nodes items) := by
  have hvalues : values? ((items.map outline).map Outline.term) = some (items.map .node) := by
    refine values?_of_forall₂ ?_
    rw [map_map, forall₂_map_left_iff, forall₂_map_right_iff, forall₂_same]
    exact h
  rw [Outline.term, Outline.termList_eq, Term.value?, hvalues]
  exact ofList?_map_node items

theorem value?_affixOutline (a : Option Affix) :
    (affixOutline a).term.value? = some (affixValue a) := by
  cases a with
  | none => rfl
  | some a =>
    have hname : List.Forall₂ (fun f v => f.term.value? = some v) [Outline.text a.name]
        [.text a.name] :=
      .cons rfl .nil
    exact value?_apply hname

theorem constructNode_str (t : String) (lead tail : Option Affix) (loc : Nat) :
    constructNode "StringLiteral" [.text t, affixValue lead, affixValue tail] loc =
      some (make (.str t lead tail) none [] loc) := by
  simp [constructNode, affix?_affixValue]

theorem constructNode_binary (op : String) (args : List Node) (loc : Nat) :
    constructNode (Grammar.binaryOf op).className [.text op, .nodes args] loc =
      some (make (.binary (Grammar.binaryOf op) op) none args loc) := by
  unfold Grammar.binaryOf
  split <;> rfl

/-- **The expression of a grammatical tree builds the tree.** -/
theorem value?_outline (h : n.Grammatical) : n.outline.term.value? = some (.node n) := by
  induction h with
  | @make kind func args loc hkind _ _ ihfunc ihargs =>
    have htext : ∀ t, (Outline.text t).term.value? = some (.text t) := fun _ => rfl
    have hlist :
        ∀ comma, (Outline.list (args.map outline) comma).term.value? = some (.nodes args) :=
      fun _ => value?_list ihargs
    have hnone : func.isSome = false → func = none := by
      rw [Option.isSome_eq_false_iff, Option.isNone_iff_eq_none]
      exact id
    rw [outline_eq]
    -- what the expression does not show, such as arguments of a name, is absent by the grammar
    cases kind with
    | name t =>
      rw [hnone hkind.2.1, length_eq_zero_iff.mp hkind.2.2]
      exact value?_apply (.cons (htext t) .nil)
    | int digits tail | float digits tail =>
      rw [hnone hkind.2.2.1, length_eq_zero_iff.mp hkind.2.2.2]
      refine (value?_apply (.cons (htext digits) (.cons (value?_affixOutline tail) .nil))).trans ?_
      cases tail <;> rfl
    | str t lead tail =>
      rw [hnone hkind.2.2.2.1, length_eq_zero_iff.mp hkind.2.2.2.2]
      refine (value?_apply (.cons (htext t) (.cons (value?_affixOutline lead)
        (.cons (value?_affixOutline tail) .nil)))).trans ?_
      exact congrArg (Option.map Value.node) (constructNode_str t lead tail loc)
    | unary op | trailing op =>
      rw [hnone hkind.2.1]
      exact value?_apply (.cons (htext op) (.cons (hlist false) .nil))
    | binary cls op =>
      obtain ⟨-, rfl, hf⟩ := hkind
      rw [hnone hf]
      refine (value?_apply (.cons (htext op) (.cons (hlist true) .nil))).trans ?_
      exact congrArg (Option.map Value.node) (constructNode_binary op args loc)
    | call oneLiner =>
      obtain ⟨rfl, hf⟩ := hkind
      obtain ⟨f, rfl⟩ := Option.isSome_iff_exists.mp hf
      exact value?_apply (.cons (ihfunc f rfl) (.cons (hlist true) .nil))
    | index | bracedCall | template =>
      obtain ⟨f, rfl⟩ := Option.isSome_iff_exists.mp hkind
      exact value?_apply (.cons (ihfunc f rfl) (.cons (hlist true) .nil))
    | parens | wrapper =>
      rw [hnone hkind.1]
      exact value?_apply (.cons (hlist true) .nil)
    | _ =>
      rw [hnone hkind]
      exact value?_apply (.cons (hlist true) .nil)

/-! ### Texts -/

theorem readNewlines_cons {cs : List Char} (h : c ≠ '\r' ∨ '\n' ∉ cs) :
    Text.readNewlines (c :: cs) = (if c == '\r' then '\n' else c) :: Text.readNewlines cs := by
  rw [Text.readNewlines]
  rintro rest rfl rfl
  simp at h

theorem readNewlines_of_not_mem {cs : List Char} (h : '\r' ∉ cs) : Text.readNewlines cs = cs := by
  induction cs with
  | nil => rfl
  | cons c cs ih =>
    rw [mem_cons, not_or] at h
    rw [readNewlines_cons (.inl (Ne.symm h.1)), ih h.2, if_neg]
    simpa using Ne.symm h.1

theorem eq_of_mem_escapeChar {d : Char} (hc : IsControl c) (h : c ∈ escapeChar d) : c = d := by
  induction d using literal_cases with
  | backslash => exact absurd hc ((by decide : ∀ c ∈ ['\\', '\\'], ¬IsControl c) c h)
  | newline => exact absurd hc ((by decide : ∀ c ∈ ['\\', 'n'], ¬IsControl c) c h)
  | quote => exact absurd hc ((by decide : ∀ c ∈ ['\\', '"'], ¬IsControl c) c h)
  | other d h₁ h₂ h₃ =>
    rw [escapeChar_of_ne h₁ h₂ h₃] at h
    exact mem_singleton.mp h

theorem mem_toList_of_mem_quote (s : String) : ∀ c ∈ quote s, IsControl c → c ∈ s.toList := by
  intro c h hc
  rw [quote_eq] at h
  obtain ⟨d, hd, hcd⟩ := exists_of_mem_quoteWith hc h
  exact eq_of_mem_escapeChar hc hcd ▸ hd

/-- The control characters of a constructor expression are those of the literals. -/
theorem exists_literal_of_mem_constructorText {s : Style} (hn : n.Grammatical)
    (hc : IsControl c) (h : c ∈ (n.constructorText s).toList) : ∃ t ∈ n.literals, c ∈ t.toList := by
  rw [toList_constructorText s hn] at h
  obtain ⟨t, ht, hct⟩ := exists_literal_of_mem_print mem_toList_of_mem_quote hn hc h
  exact ⟨t, ht, mem_toList_of_mem_quote t c hct hc⟩

/-- A grammatical module is read back, unless there is a null character in its text. -/
theorem read_of_grammatical (h : n.Grammatical) (hmodule : n.isModule = true)
    (hnull : '\x00' ∉ (n.constructorText Style.cache).toList) :
    Entry.read (n.constructorText Style.cache).toList = .module n := by
  have hterm : Term.read (n.constructorText Style.cache).toList = some n.outline.term := by
    rw [Term.read, toList_constructorText Style.cache h]
    have hread := (reads_outline n.outline).read
      (2 * (n.outline.print Style.cache quote).length + 2) [] (by omega) nofun
    rw [append_nil] at hread
    rw [hread]
    rfl
  rw [Entry.read, hterm, if_neg (by simpa using hnull)]
  simp only [value?_outline h, hmodule, if_true]

/-- **The cache reads back what it wrote.**  The constructor expression of a module that was read
    from a source text goes through a file unchanged and builds the module again, with all offsets,
    if no literal holds a carriage return or a null character. -/
theorem read_constructorText {source : String} {module : Node}
    (h : Source.readModule source = .ok module)
    (hliterals : ∀ s ∈ module.literals, '\r' ∉ s.toList ∧ '\x00' ∉ s.toList) :
    Text.readNewlines (module.constructorText Style.cache).toList =
        (module.constructorText Style.cache).toList ∧
      Entry.read (module.constructorText Style.cache).toList = .module module := by
  obtain ⟨hgrammatical, hmodule⟩ := Source.grammatical_of_readModule h
  have hcontrol : ∀ c, IsControl c → c ∈ (module.constructorText Style.cache).toList →
      ∃ s ∈ module.literals, c ∈ s.toList := fun c hc =>
    exists_literal_of_mem_constructorText hgrammatical hc
  constructor
  · refine readNewlines_of_not_mem fun hmem => ?_
    obtain ⟨s, hs, hc⟩ := hcontrol '\r' (by decide) hmem
    exact (hliterals s hs).1 hc
  · refine read_of_grammatical hgrammatical hmodule fun hmem => ?_
    obtain ⟨s, hs, hc⟩ := hcontrol '\x00' (by decide) hmem
    exact (hliterals s hs).2 hc

/-- A call with a literal in which everything is escaped that can be. -/
def escapedSource : String := "f(\"a\\\\\\n\\\"b\"s)"

/-- The expression of the module of `escapedSource`. -/
def escapedText : String :=
  "Module([Call(Identifier(\"f\", SourceLoc(None, 0)), " ++
    "[StringLiteral(\"a\\\\\\n\\\"b\", None, Identifier(\"s\", SourceLoc(None, 38)), " ++
    "SourceLoc(None, 2)), ], " ++
    "SourceLoc(None, 0)), ], SourceLoc(None, 0))"

theorem read_constructorText_escapedSource :
    ∃ module, Source.readModule escapedSource = .ok module ∧
    (∀ s ∈ module.literals, '\r' ∉ s.toList ∧ '\x00' ∉ s.toList) ∧
      module.constructorText Style.cache = escapedText ∧
        Entry.read escapedText.toList = .module module := by
  have heval : (Source.readModule escapedSource).toOption.map (fun module =>
      (module.literals, module.constructorText Style.cache)) =
        some (["a\\\n\"b"], escapedText) := by
    decide +kernel
  obtain ⟨module, hread, hfacts⟩ := Failing.exists_of_toOption heval
  obtain ⟨hliterals, htext⟩ := Prod.mk.inj hfacts
  have hclean : ∀ s ∈ module.literals, '\r' ∉ s.toList ∧ '\x00' ∉ s.toList := by
    rw [hliterals]
    decide
  refine ⟨module, hread, hclean, htext, ?_⟩
  rw [← htext]
  exact (read_constructorText hread hclean).2

end Cppward.Cache
