import Cppward.Proofs.Macro.Interpreter
import Cppward.Proofs.Macro.Unquoting

namespace Cppward.Macro

open Evaluator Grammar Naming List Node
open Function (update update_self update_of_ne)
open Failing (exists_mem_of_forall₂)

/-!
# Expansion of quotations

The quotations in the body of a macro are replaced by code that builds their trees.  The constructor
expression of a tree without its unquoted parts is written, and read as code; and in this code the
names that stand for them are replaced by the unquoted parts, whose own quotations are expanded in
turn.

* `gives_quotation` — one quotation becomes code, if unquoted parts do.
* `gives_expandQuotesTo` — all quotations do, by induction on the depth.
* `exists_expandQuotes` — the code that results means what the quotations mean, if nothing is
  overlooked; `expandQuotes_overlooks` shows what is.
-/

variable {V : Type} {s : String} {ρ : String → Option V} {p : String × Node}
  {expand : Node → Naming Node} {depth : Nat}

/-! ### Quotations become code -/

/-- Only the names of the parts have values. -/
def Only {V : Type} (taken : Unquoted) (ρ : String → Option V) : Prop :=
  ∀ s, ρ s ≠ none → s ∈ taken.map (·.1)

/-- What the expansion asks of a tree: it has the shape that the grammar gives, `quote` and `unquote`
    have one argument each, no name is fresh yet, and the texts are such that an expression with them
    is read back.  This leaves out trees with a name of the form that fresh names have and a number above
    `k`, with the reserved word for a hidden backslash in a name, or with a tab in a literal.  It is asked
    of the whole tree, so also of literals outside of quotations and in unquoted parts, where a tab does
    no harm. -/
structure Hygienic (k : Nat) (n : Node) : Prop where
  shaped : n.Shaped
  apt : Apt n
  fresh : ∀ s ∈ n.nameTexts, ∀ j, k < j → s ≠ freshName j
  words : ∀ s ∈ n.nameTexts, IsLiteral s
  tabs : ∀ s ∈ n.literals, '\t' ∉ s.toList

/-- The first tree is code with the value of the second, in which quotations are looked for at the root
    if `root` says so. -/
structure Expanded (root : Bool) (m n : Node) : Prop where
  shaped : m.Shaped
  value : ∀ {V : Type} (E : Evaluator V), E.value m = E.read false root .code n

section Expanding

variable {n m content content' built : Node} {taken : Unquoted} {k k' : Nat}

theorem Hygienic.mono (h : Hygienic k n) (hk : k ≤ k') : Hygienic k' n :=
  { h with fresh := fun s hs j hj => h.fresh s hs j (Nat.lt_of_le_of_lt hk hj) }

theorem Hygienic.of_mem_walk (h : Hygienic k n) (hm : m ∈ n.walk) : Hygienic k m where
  shaped := h.shaped.of_mem_walk hm
  apt c hc := h.apt c (mem_walk_trans hm hc)
  fresh s hs := h.fresh s (nameTexts_of_mem_walk hm hs)
  words s hs := h.words s (nameTexts_of_mem_walk hm hs)
  tabs s hs := by
    obtain ⟨c, hc, hs⟩ := mem_flatMap.mp hs
    exact h.tabs s (mem_flatMap.mpr ⟨c, mem_walk_trans hm hc, hs⟩)

theorem exists_knows (E : Evaluator V) (hnodup : (taken.map (·.1)).Nodup) :
    ∃ ρ, Knows E taken ρ ∧ Only taken ρ := by
  induction taken with
  | nil => exact ⟨fun _ => none, nofun, fun s hs => absurd rfl hs⟩
  | cons p taken ih =>
    rw [map_cons, nodup_cons] at hnodup
    obtain ⟨ρ, hknows, honly⟩ := ih hnodup.2
    refine ⟨update ρ p.1 (some (E.expanded .code p.2)), fun q hq => ?_, fun s hs => ?_⟩
    · rcases mem_cons.mp hq with rfl | hq
      · exact update_self ..
      · have hne : q.1 ≠ p.1 := fun h => hnodup.1 (h ▸ mem_map_of_mem hq)
        rw [update_of_ne hne]
        exact hknows q hq
    · by_cases hsp : s = p.1
      · exact hsp ▸ mem_cons_self
      · rw [update_of_ne hsp] at hs
        exact mem_cons_of_mem _ (honly s hs)

theorem not_isClassName_freshName (j : Nat) : isClassName (freshName j) = false := by
  obtain ⟨cs, hcs, -⟩ := exists_freshName_eq_cons j
  rw [isClassName, hcs]
  rfl

theorem isLiteral_freshName (j : Nat) : IsLiteral (freshName j) := by
  intro h
  have hmem : 'C' ∈ (freshName j).toList := h.subset (by decide)
  rw [toList_freshName, mem_append] at hmem
  rcases hmem with hmem | hmem
  · exact absurd hmem (by decide)
  · have := Nat.isDigit_of_mem_toDigits (by decide) (by decide) hmem
    exact absurd this (by decide)

/-- The names of parts are those of fresh ones. -/
theorem Numbered.exists_eq (h : Numbered k k' taken) (hs : s ∈ taken.map (·.1)) :
    ∃ j, k < j ∧ s = freshName j := by
  obtain ⟨numbers, hnumbers, -, hbound⟩ := h
  rw [hnumbers] at hs
  obtain ⟨j, hj, rfl⟩ := mem_map.mp hs
  exact ⟨j, (hbound j hj).1, rfl⟩

theorem Numbered.nodup (h : Numbered k k' taken) : (taken.map (·.1)).Nodup := by
  obtain ⟨numbers, hnumbers, hnodup, -⟩ := h
  rw [hnumbers]
  exact hnodup.map fun a b => freshName_injective

theorem Only.spares (h : Only taken ρ) (hnumbered : Numbered k k' taken) : Evaluator.Spares ρ := by
  intro s hs
  by_contra hne
  obtain ⟨j, -, rfl⟩ := hnumbered.exists_eq (h s hne)
  rw [not_isClassName_freshName] at hs
  cases hs

/-- The names of the parts do not occur in a tree that was there before. -/
theorem Only.eq_none (h : Only taken ρ)
    (hnumbered : Numbered k k' taken) (hn : Hygienic k n) : ∀ s ∈ n.nameTexts, ρ s = none := by
  intro s hs
  by_contra hne
  obtain ⟨j, hj, rfl⟩ := hnumbered.exists_eq (h s hne)
  exact hn.fresh _ hs j hj rfl

/-- **The expression of a quotation** has the value of the quoted tree, where the names of the
    unquoted parts have values. -/
theorem exists_quotation_of_stands (hcontent : Hygienic k content)
    (hnumbered : Numbered k k' taken) (hstands : Stands taken false content' content)
    (hkind : content'.kind = content.kind) :
    ∃ built, quotation content' (taken.map (·.1)) = .ok built ∧ built.Shaped ∧ built.name? = none ∧
      ∀ {V : Type} (E : Evaluator V) (ρ : String → Option V), Knows E taken ρ → Only taken ρ →
        (E.within ρ).value built = E.expanded .tree content := by
  have hnumbered' := hnumbered
  obtain ⟨numbers, hnumbers, -, hbound⟩ := hnumbered'
  -- the nodes of the tree that is written are old ones or fresh names
  have hkinds : ∀ m ∈ content'.bare.walk,
      (∃ c ∈ content.walk, m.kind = c.kind) ∨ ∃ j ∈ numbers, m.kind = .name (freshName j) := by
    intro m hm
    obtain ⟨c', hc', hmc⟩ := exists_of_mem_walk_bare hm
    rw [hmc]
    refine (hstands.kinds c' hc').imp_right fun ⟨p, hp, hname⟩ => ?_
    have hmem : p.1 ∈ numbers.map freshName := hnumbers ▸ mem_map_of_mem hp
    obtain ⟨j, hj, hjp⟩ := mem_map.mp hmem
    exact ⟨j, hj, by rw [hname, hjp]⟩
  have hold : ∀ c ∈ content.walk, ∀ j ∈ numbers, freshName j ∉ c.kind.nameTexts :=
    fun c hc j hj hmem =>
      hcontent.fresh _ (mem_flatMap.mpr ⟨c, hc, hmem⟩) j (hbound j hj).1 rfl
  have haffix : ∀ j ∈ numbers, content'.bare.AffixesSpare j := by
    intro j hj m hm hident
    rcases hkinds m hm with ⟨c, hc, hmc⟩ | ⟨i, -, hmi⟩
    · exact hmc ▸ hold c hc j hj
    · rw [isIdent, Node.name?, hmi] at hident
      cases hident
  have hroot : freeNumber? numbers content'.bare.kind = none := by
    by_contra hne
    obtain ⟨j, hj⟩ := Option.ne_none_iff_exists'.mp hne
    obtain ⟨hname, hmem⟩ := eq_of_freeNumber? hj
    rw [bare_eq] at hname
    have hname : content.kind = .name (freshName j) := hkind ▸ hname
    exact hold content content.self_mem_walk j hmem (by simp [hname, Kind.nameTexts])
  have htab : ∀ t ∈ content'.bare.literals, '\t' ∉ t.toList := by
    intro t ht
    obtain ⟨m, hm, ht⟩ := mem_flatMap.mp ht
    rcases hkinds m hm with ⟨c, hc, hmc⟩ | ⟨i, -, hmi⟩
    · exact hcontent.tabs t (mem_flatMap.mpr ⟨c, hc, hmc ▸ ht⟩)
    · rw [hmi] at ht
      cases ht
  have hnames : ∀ s ∈ content'.bare.nameTexts, IsLiteral s := by
    intro s hs
    obtain ⟨m, hm, hs⟩ := mem_flatMap.mp hs
    rcases hkinds m hm with ⟨c, hc, hmc⟩ | ⟨i, -, hmi⟩
    · exact hcontent.words s (mem_flatMap.mpr ⟨c, hc, hmc ▸ hs⟩)
    · rw [hmi, Kind.nameTexts, mem_singleton] at hs
      exact hs ▸ isLiteral_freshName i
  obtain ⟨built, hbuilt, hgrammatical, halike⟩ := exists_quotation
    (hstands.shaped hcontent.shaped).grammatical_bare haffix hroot htab hnames
  refine ⟨built, ?_, hgrammatical.shaped, ?_, fun E ρ hknows honly => ?_⟩
  · rw [hnumbers, ← hbuilt, quotation, quotation, constructorText_bare]
  · have hcall := beq_iff_eq.mp ((alike_iff _ _).mp halike).1
    rw [sketch_of_not hroot] at hcall
    rw [Node.name?, hcall]
    rfl
  · have hfree : ∀ j ∈ numbers, ρ (freshName j) ≠ none := by
      intro j hj
      have hmem : freshName j ∈ taken.map (·.1) := hnumbers ▸ mem_map_of_mem hj
      obtain ⟨p, hp, hpj⟩ := mem_map.mp hmem
      rw [← hpj, hknows p hp]
      exact Option.some_ne_none _
    have hname : ∀ s ∈ content'.bare.nameTexts, ρ s ≠ none → ∃ j ∈ numbers, s = freshName j := by
      intro s _ hs
      have hmem := honly s hs
      rw [hnumbers] at hmem
      obtain ⟨j, hj, hjs⟩ := mem_map.mp hmem
      exact ⟨j, hj, hjs.symm⟩
    calc (E.within ρ).value built
        = (E.within ρ).value ((content'.bare.sketch numbers).tree id) := value_of_alike _ halike
      _ = (E.builder.within ρ).value content'.bare :=
          E.value_tree_sketch (honly.spares hnumbered) hfree hname
      _ = (E.builder.within ρ).value content' := value_bare _ content'
      _ = E.expanded .tree content :=
          hstands.value E ρ hknows (honly.eq_none hnumbered hcontent)

theorem Knows.forget {E : Evaluator V} (h : Knows E (p :: taken) ρ) (hp : p.1 ∉ taken.map (·.1)) :
    Knows E taken (update ρ p.1 none) := by
  intro q hq
  have hne : q.1 ≠ p.1 := fun heq => hp (heq ▸ mem_map_of_mem hq)
  rw [update_of_ne hne]
  exact h q (mem_cons_of_mem p hq)

theorem Only.forget (h : Only (p :: taken) ρ) : Only taken (update ρ p.1 none) := by
  intro s hs
  have hne : s ≠ p.1 := by
    rintro rfl
    exact hs (update_self ..)
  rw [update_of_ne hne] at hs
  exact (mem_cons.mp (h s hs)).resolve_left hne

theorem Only.eq_none_of (h : Only taken ρ) (hs : ∀ p ∈ taken, p.1 ≠ s) : ρ s = none := by
  by_contra hne
  obtain ⟨p, hp, hps⟩ := mem_map.mp (h s hne)
  exact hs p hp hps

/-- What is put in place of the names has the values of the unquoted parts. -/
theorem gives_fillIn
    (hexpand : ∀ p ∈ taken, ∀ k₁, k ≤ k₁ → Gives (expand p.2) k₁ fun m _ => Expanded false m p.2)
    (hnodup : (taken.map (·.1)).Nodup) (hapt : ∀ p ∈ taken, Apt p.2)
    (hclass : ∀ p ∈ taken, isClassName p.1 = false)
    (hnames : ∀ p ∈ taken, ∀ q ∈ taken, p.1 ∉ q.2.nameTexts)
    (hbuilt : built.Shaped) (hroot : built.name? = none) (hk : k ≤ k') :
    Gives (taken.foldlM (fun built p => do return replaceName p.1 (← expand p.2) built) built) k'
      fun m _ => m.Shaped ∧ ∀ {V : Type} (E : Evaluator V) (ρ : String → Option V),
        Knows E taken ρ → Only taken ρ → E.value m = (E.within ρ).value built := by
  induction taken generalizing built k' with
  | nil =>
    refine .pure ⟨hbuilt, fun E ρ _ honly => ?_⟩
    have hρ : ρ = fun _ => none := by
      funext s
      by_contra hne
      exact absurd (honly s hne) not_mem_nil
    rw [hρ, value_within_none]
  | cons p taken ih =>
    obtain ⟨hfirst, hrest⟩ := forall_mem_cons.mp hexpand
    rw [map_cons, nodup_cons] at hnodup
    obtain ⟨hnot, hnodup⟩ := hnodup
    rw [foldlM_cons]
    have hstep : Gives (do return replaceName p.1 (← expand p.2) built) k' fun built' _ =>
        ∃ m, Expanded false m p.2 ∧ built' = replaceName p.1 m built :=
      (hfirst k' hk).bind fun m _ _ hm => .pure ⟨m, hm, rfl⟩
    refine hstep.bind ?_
    rintro _ k₁ hk₁ ⟨m, hm, rfl⟩
    have hmem : p ∈ p :: taken := mem_cons_self
    have hlater : ∀ {q}, q ∈ taken → q ∈ p :: taken := mem_cons_of_mem p
    have hname : (replaceName p.1 m built).name? = none := by
      rw [replaceName_eq]
      exact hroot
    refine (ih hrest hnodup (fun q hq => hapt q (hlater hq)) (fun q hq => hclass q (hlater hq))
      (fun q hq r hr => hnames q (hlater hq) r (hlater hr)) (shaped_replaceName hbuilt hm.shaped)
      hname (Nat.le_trans hk hk₁)).mono ?_
    rintro result k₂ - ⟨hshaped, hvalue⟩
    refine ⟨hshaped, fun {V} E ρ hknows honly => ?_⟩
    -- the names that are replaced later have no values in what is put in place of this one
    have hknows' := hknows.forget hnot
    have honly' := honly.forget
    have hnew : (E.within (update ρ p.1 none)).value m = E.expanded .code p.2 := by
      rw [hm.value]
      refine E.read_within (fun s hs => honly'.eq_none_of fun q hq hqs => ?_) (hapt p hmem)
        fun s hs => honly'.eq_none_of fun q hq hqs => hnames q (hlater hq) p hmem (hqs ▸ hs)
      rw [← hqs, hclass q (hlater hq)] at hs
      cases hs
    have hupdate : update (update ρ p.1 none) p.1
        (some (E.expanded .code p.2)) = ρ := by
      rw [Function.update_idem, ← hknows p hmem, Function.update_eq_self]
    have hfree : built.isNamed p.1 = false := by
      rw [isNamed, hroot]
      rfl
    rw [hvalue E _ hknows' honly', E.value_replaceName hnew hfree, hupdate]

/-- **A quotation becomes code** with the value of its tree. -/
theorem gives_quotation (hcontent : Hygienic k content)
    (hexpand : ∀ e ∈ content.walk, ∀ k₁, k ≤ k₁ → Gives (expand e) k₁ fun m _ => Expanded false m e) :
    Gives (do
      let (content, unquoted) ← takeUnquotes content
      let built ← quotation content (unquoted.map (·.1))
      unquoted.foldlM (fun built p => do return replaceName p.1 (← expand p.2) built) built) k
      fun m _ => m.Shaped ∧ ∀ {V : Type} (E : Evaluator V), E.value m = E.expanded .tree content := by
  refine (gives_takeUnquotes hcontent.apt k).bind ?_
  rintro ⟨content', taken⟩ k₁ hk ⟨hnumbered, hcontents, hstands, hkind⟩
  obtain ⟨built, hbuilt, hshaped, hroot, hvalue⟩ :=
    exists_quotation_of_stands hcontent hnumbered hstands hkind
  have hclean : ∀ p ∈ taken, Hygienic k p.2 := fun p hp => hcontent.of_mem_walk (hcontents p hp)
  have hfresh : ∀ p ∈ taken, ∃ j, k < j ∧ p.1 = freshName j :=
    fun p hp => hnumbered.exists_eq (mem_map_of_mem hp)
  refine gives_lift_bind hbuilt ((gives_fillIn (fun p hp => hexpand p.2 (hcontents p hp))
    hnumbered.nodup (fun p hp => (hclean p hp).apt) (fun p hp => ?_) (fun p hp q hq hmem => ?_)
    hshaped hroot hk).mono ?_)
  · obtain ⟨j, -, hj⟩ := hfresh p hp
    rw [hj, not_isClassName_freshName]
  · obtain ⟨j, hlt, hj⟩ := hfresh p hp
    exact (hclean q hq).fresh _ hmem j hlt hj
  · rintro m _ - ⟨hm, hfilled⟩
    refine ⟨hm, fun E => ?_⟩
    obtain ⟨ρ, hknows, honly⟩ := exists_knows E hnumbered.nodup
    rw [hfilled E ρ hknows honly, hvalue E ρ hknows honly]

/-! ### Whole trees -/

/-- Quotes are expanded in a part as in a whole node. -/
theorem gives_expandPart (hn : Hygienic k n)
    (h : ∀ e ∈ n.walk, ∀ k₁, k ≤ k₁ → Gives (expandQuotesTo depth e) k₁ fun m _ => Expanded false m e) :
    Gives (expandPart (expandQuotesTo depth) n) k fun m _ => Expanded true m n := by
  rw [expandPart]
  cases hcall : n.isCallOf "quote" with
  | true =>
    obtain ⟨content, hargs⟩ := hn.apt.self .code hcall
    have hmem : content ∈ n.walk :=
      child_mem_walk (mem_append_right _ (hargs ▸ mem_singleton_self content))
    refine gives_lift_bind (quotedPart_of_call hcall hargs) ?_
    refine (gives_quotation (hn.of_mem_walk hmem) fun e he =>
      h e (mem_walk_trans hmem he)).mono ?_
    rintro m _ - ⟨hm, hvalue⟩
    refine ⟨hm, fun E => ?_⟩
    rw [hvalue E, E.read_of_call rfl hcall hargs]
    rfl
  | false =>
    refine gives_lift_bind (quotedPart_of_not hcall) ((h n n.self_mem_walk k (Nat.le_refl k)).mono ?_)
    rintro m _ - hm
    refine ⟨hm.shaped, fun E => ?_⟩
    rw [hm.value E, E.read_of_not (Bool.false_and _), E.read_of_not]
    exact hcall

/-- Code whose parts are expanded has the value of the code before, unless that is quoted. -/
theorem Expanded.node {func : Option Node} {args : List Node}
    (hfunc : List.Forall₂ (fun n m => Expanded true m n) n.func.toList func.toList)
    (hargs : List.Forall₂ (fun n m => Expanded true m n) n.args args)
    (hn : n.kind.Fits n.func.isSome n.args.length ∧ n.type = none) :
    Expanded false { n with args, func } n := by
  constructor
  case shaped =>
    have hsome : func.isSome = n.func.isSome := by
      have := hfunc.length_eq
      cases hf : n.func <;> cases func <;> simp_all
    refine shaped_of_children ?_ fun m hm => ?_
    · rw [hsome, ← hargs.length_eq]
      exact hn
    · obtain ⟨c, -, hc⟩ := exists_mem_of_forall₂ (rel_append hfunc hargs) hm
      exact hc.shaped
  case value =>
    intro V E
    have hfunc := map_option_eq_of_forall₂ (hfunc.imp fun _ _ h => (h.value E).symm)
    have hargs := map_eq_of_forall₂ (hargs.imp fun _ _ h => (h.value E).symm)
    rw [E.read_of_not (Bool.false_and _), value_eq, hfunc, hargs]
    rfl

/-- **All quotations below a node are expanded**, if the depth is that of the tree at least. -/
theorem gives_expandQuotesTo (hn : Hygienic k n) (hdepth : n.size ≤ depth) :
    Gives (expandQuotesTo depth n) k fun m _ => Expanded false m n := by
  induction depth generalizing n k with
  | zero =>
    have : 0 < n.size := by
      obtain ⟨info, kind, func, args, type⟩ := n
      rw [size]
      omega
    omega
  | succ depth ih =>
    have hpart : ∀ m ∈ n.children, ∀ k₁, k ≤ k₁ →
        Gives (expandPart (expandQuotesTo depth) m) k₁ fun m' _ => Expanded true m' m := by
      intro m hm k₁ hk
      have hclean := (hn.of_mem_walk (child_mem_walk hm)).mono hk
      refine gives_expandPart hclean fun e he k₂ hk₂ => ih ((hclean.of_mem_walk he).mono hk₂) ?_
      have := size_lt_of_mem_parts (child_mem_parts hm)
      have := size_le_of_mem_walk he
      omega
    have hargs := gives_mapM (R := fun n m => Expanded true m n)
      fun m hm => hpart m (mem_append_right _ hm)
    have hfunc := gives_mapM_option (R := fun n m => Expanded true m n)
      fun m hm => hpart m (mem_append_left _ (Option.mem_toList.mpr hm))
    rw [expandQuotesTo]
    refine (hargs k (Nat.le_refl k)).bind fun args k₁ hk hargs => ?_
    refine (hfunc k₁ hk).bind fun func k₂ _ hfunc => .pure ?_
    exact .node hfunc hargs (hn.shaped n n.self_mem_walk)

/-- No call of a word is left in code that means what quotations mean, if none stands in code that is
    not quoted, other than as a quotation. -/
theorem Expanded.isCallOf_eq_false {word : String} (h : Expanded false m n) (hn : Apt n)
    (hroot : n.isCallOf "quote" = false) (hnoticed : Noticed .code n)
    (hword : isClassName word = false)
    (hcode : ∀ p ∈ positions .code n, p.1 = .code → p.2.isCallOf word = true →
      p.2.isCallOf "quote" = true) : ∀ c ∈ m.walk, c.isCallOf word = false := by
  have hmeaning : (callsOf word).value m = (callsOf word).meaning .code n := by
    rw [h.value, read_eq_meaning _ hnoticed hn (.inr hroot)]
  rw [value_callsOf fun c hc => (h.shaped c hc).2] at hmeaning
  have hany : m.walk.any (·.isCallOf word) = false := by
    rw [← (meaning_callsOf hword hn hnoticed hcode).1, ← hmeaning]
  intro c hc
  simpa using any_eq_false.mp hany c hc

/-- **Quotation is substitution.**  The expansion succeeds, with code that has the value which
    `expanded` gives, for every evaluator.  If the root is no quotation and no change of the mode comes
    right behind another one, this is the meaning: where constructor calls build trees, a quotation
    has the value of its tree with the values of the unquoted parts filled in (`builds_interpreter` gives
    an evaluator of this kind).  No `quote` is left then, and no `unquote` but for those outside of
    quotations.  Trees that are not `Hygienic`, with fresh names, reserved words or tabs, are left out. -/
theorem exists_expandQuotes (hn : Hygienic k n) :
    ∃ m k', expandQuotes n k = .ok (m, k') ∧
      (∀ {V : Type} (E : Evaluator V), E.value m = E.expanded .code n) ∧
      (n.isCallOf "quote" = false → Noticed .code n →
        (∀ {V : Type} (E : Evaluator V), E.value m = E.meaning .code n ∧
          ∀ {X : Type} (tree : (X → Node) → V), E.Builds tree →
            ∀ q T, (.code, q) ∈ positions .code n → q.isCallOf "quote" = true → q.args = [T] →
              ∀ v : Node → X → Node, (∀ e ∈ unquoted T, E.meaning .code e = tree (v e)) →
                E.meaning .code q = tree fun x => fill (v · x) T) ∧
        (∀ c ∈ m.walk, c.isCallOf "quote" = false) ∧
        ((∀ q, (.code, q) ∈ positions .code n → q.isCallOf "unquote" = false) →
          ∀ c ∈ m.walk, c.isCallOf "unquote" = false)) := by
  obtain ⟨m, k', hm, -, hexpanded⟩ := gives_expandQuotesTo hn (Nat.le_succ n.size)
  refine ⟨m, k', hm, hexpanded.value, fun hroot hnoticed => ⟨fun E => ⟨?_, ?_⟩, ?_, fun hcode => ?_⟩⟩
  · rw [hexpanded.value, E.read_eq_meaning hnoticed hn.apt (.inr hroot)]
  · intro X tree hbuilds q T hq hquote hargs v hv
    have hT : T ∈ n.walk := by
      refine Node.mem_walk_trans (mem_walk_of_mem_positions hq) (Node.child_mem_walk ?_)
      exact List.mem_append_right _ (hargs ▸ List.mem_singleton_self T)
    have hclean := hn.of_mem_walk hT
    calc E.meaning .code q
        = E.meaning .tree T := E.meaning_of_call hquote hargs
      _ = tree fun x => fill (v · x) T :=
          E.meaning_eq_tree hbuilds (fun c hc => (hclean.shaped c hc).1) hclean.apt hv
  · exact hexpanded.isCallOf_eq_false hn.apt hroot hnoticed (by decide) fun _ _ _ h => h
  · refine hexpanded.isCallOf_eq_false hn.apt hroot hnoticed (by decide) ?_
    rintro ⟨mode, q⟩ hq rfl hcall
    exact absurd hcall (Bool.eq_false_iff.mp (hcode q hq))

/-! ### A run -/

/-- Two names that stand for trees. -/
def sampleTrees : String → Option Node
  | "x" => some (Node.ident "a")
  | "y" => some (Node.ident "b")
  | _ => none

/-- Unquoted parts in several places, one of them with quotations of its own. -/
def sampleSource : String :=
  "quote(f(unquote(x), unquote(Call(quote(g), [quote(h(unquote(x)))] : Node)), unquote(y)(1)))"

instance (s : String) : Decidable (IsLiteral s) := inferInstanceAs (Decidable (¬_))

/-- The tree can be expanded, as far as this is seen from its names and literals. -/
def Clean (n : Node) : Prop :=
  Apt n ∧ (∀ s ∈ n.nameTexts, s.toList.head? ≠ some 'c' ∧ IsLiteral s) ∧ n.literals = []

instance (n : Node) : Decidable (Clean n) := inferInstanceAs (Decidable (_ ∧ _ ∧ _))

/-- A source that is read as a clean tree with a property. -/
theorem exists_hygienic (source : String) (check : Node → Bool)
    (h : (Source.readModule source).toOption.any (fun n => decide (Clean n) && check n) = true) :
    ∃ module, Source.readModule source = .ok module ∧ Hygienic 0 module ∧ check module = true := by
  cases hread : Source.readModule source with
  | error e =>
    rw [hread] at h
    cases h
  | ok module =>
    rw [hread, Except.toOption, Option.any_some, Bool.and_eq_true, decide_eq_true_eq] at h
    obtain ⟨⟨hapt, hnames, hliterals⟩, hcheck⟩ := h
    refine ⟨module, rfl, ⟨(Source.grammatical_of_readModule hread).1.shaped, hapt, ?_,
      fun s hs => (hnames s hs).2, fun s hs => ?_⟩, hcheck⟩
    · intro s hs j _ hsj
      obtain ⟨cs, hcs, -⟩ := exists_freshName_eq_cons j
      exact (hnames s hs).1 (by rw [hsj, hcs]; rfl)
    · rw [hliterals] at hs
      cases hs

theorem expandQuotes_sampleSource : ∃ module m k', Source.readModule sampleSource = .ok module ∧
    Hygienic 0 module ∧ expandQuotes module 0 = .ok (m, k') ∧
      ((interpreter sampleTrees).value m).text? = some "f(a, g(h(a)), b(1))" ∧
      ∀ c ∈ m.walk, c.isCallOf "quote" = false ∧ c.isCallOf "unquote" = false := by
  obtain ⟨module, hread, hclean, hcheck⟩ := exists_hygienic sampleSource
    (fun n => decide (n.isCallOf "quote" = false ∧ Noticed .code n ∧
      (∀ p ∈ positions .code n, p.1 = .code → p.2.isCallOf "unquote" = false) ∧
      ((interpreter sampleTrees).meaning .code n).text? = some "f(a, g(h(a)), b(1))"))
    (by decide +kernel)
  obtain ⟨hroot, hnoticed, hcode, htext⟩ := decide_eq_true_eq.mp hcheck
  obtain ⟨m, k', hm, -, hmeaning⟩ := exists_expandQuotes hclean
  obtain ⟨hvalue, hquote, hunquote⟩ := hmeaning hroot hnoticed
  refine ⟨module, m, k', hread, hclean, hm, ?_, fun c hc => ⟨hquote c hc, hunquote ?_ c hc⟩⟩
  · rw [(hvalue (interpreter sampleTrees)).1, htext]
  · exact fun q hq => hcode _ hq rfl

/-- What stands right behind a change of the mode is overlooked: a tree that is unquoted as a whole is
    built with the call of `unquote`, and a quotation that is unquoted is left as it is. -/
theorem expandQuotes_overlooks :
    (∃ module m k', Source.readModule "quote(unquote(x))" = .ok module ∧
      expandQuotes module 0 = .ok (m, k') ∧
      ((interpreter sampleTrees).meaning .code module).text? = some "a" ∧
      ((interpreter sampleTrees).value m).text? = some "unquote(x)") ∧
    ∃ module m k', Source.readModule "quote(f(unquote(quote(x))))" = .ok module ∧
      expandQuotes module 0 = .ok (m, k') ∧ ∃ c ∈ m.walk, c.isCallOf "quote" = true := by
  constructor
  · obtain ⟨module, hread, hclean, hcheck⟩ := exists_hygienic "quote(unquote(x))"
      (fun n => decide (((interpreter sampleTrees).meaning .code n).text? = some "a" ∧
        ((interpreter sampleTrees).expanded .code n).text? = some "unquote(x)"))
      (by decide +kernel)
    obtain ⟨hmeaning, htext⟩ := decide_eq_true_eq.mp hcheck
    obtain ⟨m, k', hm, -, hexpanded⟩ := gives_expandQuotesTo hclean (Nat.le_succ module.size)
    exact ⟨module, m, k', hread, hm, hmeaning, by rw [hexpanded.value, ← htext]; rfl⟩
  · obtain ⟨module, hread, hclean, hcheck⟩ :=
      exists_hygienic "quote(f(unquote(quote(x))))" (fun n => ((callsOf "quote").expanded .code n).1)
        (by decide +kernel)
    obtain ⟨m, k', hm, -, hexpanded⟩ := gives_expandQuotesTo hclean (Nat.le_succ module.size)
    have hvalue : (callsOf "quote").value m = (callsOf "quote").expanded .code module :=
      hexpanded.value _
    rw [value_callsOf fun c hc => (hexpanded.shaped c hc).2] at hvalue
    refine ⟨module, m, k', hread, hm, List.any_eq_true.mp ?_⟩
    rw [← hcheck, ← hvalue]

end Expanding

end Cppward.Macro
