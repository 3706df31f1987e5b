import Cppward.Proofs.Macro.Match

namespace Cppward

open List Node

/-!
# A match gives back the node, operators aside

If a pattern matches a node, the pattern with the bound nodes filled in is the node again: the
classes, names, literals and the shape are those of the node.  The matcher does not look at
operators, though, so `a in b` also matches `x + y`.

* `IsPlain.bindsOnly_of_matchNode` — a match binds parameters of its own pattern only, so the
  bindings of one part do not disturb another (`fill_congr`).
* `IsPlain.fillsBack` — the filled pattern agrees with the node.
* `fill_coincides_iff_of_matchNode` — it coincides with it exactly when the operators are the same.
-/

variable {n : Node} {s x : String} {as : List String} {m : Bindings} {ps args : List Node}

namespace Node

mutual
/-- The tree with bound nodes in place of the names that are bound. -/
def fill (bs : Macro.Bindings) : Node → Node
  | ⟨info, kind, func, args, type⟩ =>
    match kind with
    | .name s => (bs.lookup s).getD ⟨info, .name s, func, args, type⟩
    | kind => ⟨info, kind, fillOption bs func, fillList bs args, type⟩

def fillOption (bs : Macro.Bindings) : Option Node → Option Node
  | none => none
  | some n => some (n.fill bs)

def fillList (bs : Macro.Bindings) : List Node → List Node
  | [] => []
  | n :: ns => n.fill bs :: fillList bs ns
end

mutual
/-- The names in a tree, one for each place; declared types are left aside. -/
def names : Node → List String
  | ⟨_, kind, func, args, _⟩ =>
    match kind with
    | .name s => [s]
    | _ => namesOption func ++ namesList args

def namesOption : Option Node → List String
  | none => []
  | some n => n.names

def namesList : List Node → List String
  | [] => []
  | n :: ns => n.names ++ namesList ns
end

variable {bs bs' : Macro.Bindings}

theorem fill_name (h : n.kind = .name s) : n.fill bs = (bs.lookup s).getD n := by
  obtain ⟨info, kind, func, args, type⟩ := n
  obtain rfl : kind = .name s := h
  rfl

theorem fill_of_isIdent_eq_false (h : n.isIdent = false) :
    n.fill bs = { n with func := fillOption bs n.func, args := fillList bs n.args } := by
  obtain ⟨info, kind, func, args, type⟩ := n
  cases kind <;> first | rfl | simp [isIdent, name?] at h

theorem names_name (h : n.kind = .name s) : n.names = [s] := by
  obtain ⟨info, kind, func, args, type⟩ := n
  obtain rfl : kind = .name s := h
  rfl

theorem names_of_isIdent_eq_false (h : n.isIdent = false) :
    n.names = namesOption n.func ++ namesList n.args := by
  obtain ⟨info, kind, func, args, type⟩ := n
  cases kind <;> first | rfl | simp [isIdent, name?] at h

theorem fillList_eq_map (ns : List Node) : fillList bs ns = ns.map (fill bs) :=
  eq_map rfl (fun _ _ => rfl) ns

theorem mem_namesList {ns : List Node} : x ∈ namesList ns ↔ ∃ n ∈ ns, x ∈ n.names := by
  induction ns with
  | nil => simp [namesList]
  | cons n ns ih => simp [namesList, ih]

/-- Only the bindings of names in the pattern are filled in. -/
theorem fill_congr (h : ∀ x ∈ n.names, bs.lookup x = bs'.lookup x) : n.fill bs = n.fill bs' := by
  induction n using Node.induction with
  | step n hfunc hargs _ =>
    cases hident : n.isIdent with
    | true =>
      obtain ⟨s, hs⟩ := Macro.kind_of_isIdent hident
      rw [names_name hs] at h
      rw [fill_name hs, fill_name hs, h s (mem_singleton_self s)]
    | false =>
      rw [names_of_isIdent_eq_false hident] at h
      have hf : fillOption bs n.func = fillOption bs' n.func := by
        cases hn : n.func with
        | none => rfl
        | some f =>
          rw [hn] at h
          exact congrArg some (hfunc f hn fun x hx => h x (mem_append_left _ hx))
      have has : fillList bs n.args = fillList bs' n.args := by
        rw [fillList_eq_map, fillList_eq_map]
        refine map_congr_left fun a ha => hargs a ha fun x hx => h x ?_
        exact mem_append_right _ (mem_namesList.mpr ⟨a, ha, hx⟩)
      rw [fill_of_isIdent_eq_false hident, fill_of_isIdent_eq_false hident, hf, has]

theorem fill_nil (n : Node) : n.fill [] = n := by
  induction n using Node.induction with
  | step n hfunc hargs _ =>
    cases hident : n.isIdent with
    | true =>
      obtain ⟨s, hs⟩ := Macro.kind_of_isIdent hident
      rw [fill_name hs, lookup_nil, Option.getD_none]
    | false =>
      have hf : fillOption [] n.func = n.func := by
        cases hn : n.func with
        | none => rfl
        | some f => exact congrArg some (hfunc f hn)
      have has : fillList [] n.args = n.args := by
        rw [fillList_eq_map]
        exact (map_congr_left hargs).trans (map_id' _)
      rw [fill_of_isIdent_eq_false hident, hf, has]
      cases n
      rfl

end Node

namespace Macro

variable {params : Parameters}

/-- No parameter stands twice among the names of a pattern. -/
def IsLinear (params : Parameters) (names : List String) : Prop :=
  ∀ d ∈ params, names.count d.1 ≤ 1

instance (params : Parameters) (names : List String) : Decidable (IsLinear params names) :=
  inferInstanceAs (Decidable (∀ d ∈ params, names.count d.1 ≤ 1))

theorem IsLinear.left {bs : List String} (h : IsLinear params (as ++ bs)) : IsLinear params as := by
  intro d hd
  have hcount := h d hd
  rw [count_append] at hcount
  omega

theorem IsLinear.right {bs : List String} (h : IsLinear params (as ++ bs)) :
    IsLinear params bs := by
  intro d hd
  have hcount := h d hd
  rw [count_append] at hcount
  omega

/-- Two parts of a linear pattern have no parameter in common. -/
theorem IsLinear.not_mem_of_mem {bs : List String} (h : IsLinear params (as ++ bs))
    (hx : (params.lookup x).isSome = true) (ha : x ∈ as) : x ∉ bs := by
  intro hb
  obtain ⟨d, hd, hxd⟩ := lookup_isSome_iff.mp hx
  obtain rfl : x = d.1 := by simpa using hxd
  have hcount := h d hd
  rw [count_append] at hcount
  have h₁ := count_pos_iff.mpr ha
  have h₂ := count_pos_iff.mpr hb
  omega

/-- A name in a pattern either stands for the node as a parameter, or is the name of the node. -/
theorem IsPlain.matchName_cases (h : IsPlain params) (hm : matchName params s n = some m) :
    (m = [(s, n)] ∧ (params.lookup s).isSome = true) ∨ (m = [] ∧ n.kind = .name s) := by
  have hsame : sameName s n = some m → m = [] ∧ n.kind = .name s := by
    intro hs
    unfold sameName at hs
    split at hs
    · rename_i hnamed
      refine ⟨by simpa using hs.symm, ?_⟩
      obtain ⟨info, kind, func, args, type⟩ := n
      cases kind <;> simp_all [isNamed, Node.name?]
    · exact absurd hs (by simp)
  unfold matchName at hm
  split at hm
  · exact .inr (hsame hm)
  · rename_i declaration hlookup
    split at hm
    · exact .inl ⟨by simpa using hm.symm, by rw [hlookup]; rfl⟩
    · split at hm
      · rename_i type hclass
        have hbind : (params.lookup s).bind declaredClass? = some type := by
          rw [hlookup, Option.bind_some, hclass]
        obtain ⟨cls, hcls⟩ := h.declaredClass hbind
        obtain ⟨info, kind, func, args, type⟩ := type
        obtain rfl : kind = .name cls := hcls
        rw [wildcardTyped] at hm
        split at hm
        · exact .inl ⟨by simpa using hm.symm, by rw [hlookup]; rfl⟩
        · exact .inr (hsame hm)
      · exact .inr (hsame hm)

/-! ### A match binds parameters of its own pattern -/

/-- The bindings of a match belong to parameters that stand in the list `names`. -/
def BindsOnly (params : Parameters) (names : List String) (bs : Bindings) : Prop :=
  ∀ x, (bs.lookup x).isSome = true → x ∈ names ∧ (params.lookup x).isSome = true

theorem BindsOnly.lookup_eq_none {bs : Bindings} {names others : List String}
    (h : BindsOnly params names bs) (hlin : IsLinear params (names ++ others)) {x : String}
    (hx : x ∈ others) : bs.lookup x = none := by
  rw [← Option.not_isSome_iff_eq_none]
  intro hsome
  obtain ⟨hmem, hparam⟩ := h x hsome
  exact hlin.not_mem_of_mem hparam hmem hx

/-- What matching arguments adds to bindings comes from the names in these arguments. -/
theorem IsPlain.lookup_of_matchArgs (h : IsPlain params) {bs : Bindings}
    (hps : ∀ p ∈ ps, ∀ a found, matchNode params p a = .ok (some found) →
      BindsOnly params p.names found)
    (hm : matchArgs params false (operandsOf params ps) args bs = .ok (some m)) (x : String) :
    ∃ extra : Option Node, m.lookup x = (bs.lookup x).or extra ∧
      (extra.isSome = true → x ∈ namesList ps ∧ (params.lookup x).isSome = true) := by
  induction ps generalizing args bs with
  | nil =>
    rcases h.matchArgs_cases hm with ⟨-, -, rfl⟩ | ⟨p, ps', a, args', found, hnil, -⟩
    · exact ⟨none, by simp, by simp⟩
    · exact absurd hnil (by simp)
  | cons p ps ih =>
    rcases h.matchArgs_cases hm with ⟨hnil, -⟩ | ⟨_, _, a, args', found, hcons, rfl, hpa, hrest⟩
    · exact absurd hnil (by simp)
    · obtain ⟨rfl, rfl⟩ := List.cons.inj hcons
      obtain ⟨extra, hlookup, hextra⟩ :=
        ih (fun q hq => hps q (mem_cons_of_mem p hq)) hrest
      refine ⟨(found.lookup x).or extra, ?_, ?_⟩
      · rw [hlookup, Bindings.lookup_union, Option.or_assoc]
      · intro hsome
        rw [namesList, mem_append]
        rw [Option.isSome_or, Bool.or_eq_true] at hsome
        rcases hsome with hfound | hmore
        · obtain ⟨hx, hparam⟩ := hps p mem_cons_self a found hpa x hfound
          exact ⟨.inl hx, hparam⟩
        · obtain ⟨hx, hparam⟩ := hextra hmore
          exact ⟨.inr hx, hparam⟩

/-- A match binds nothing but parameters that stand in its pattern. -/
theorem IsPlain.bindsOnly_of_matchNode (h : IsPlain params) {p : Node} :
    ∀ n m, matchNode params p n = .ok (some m) → BindsOnly params p.names m := by
  induction p using Node.induction with
  | step p hfunc hargs _ =>
    intro n m hm x hx
    cases hident : p.isIdent with
    | true =>
      obtain ⟨s, hs⟩ := kind_of_isIdent hident
      rw [matchNode_name hs, Except.ok.injEq] at hm
      rw [names_name hs, mem_singleton]
      rcases h.matchName_cases hm with ⟨rfl, hparam⟩ | ⟨rfl, -⟩
      · obtain rfl : x = s := by
          by_contra hne
          simp [lookup_cons, beq_false_of_ne hne] at hx
        exact ⟨rfl, hparam⟩
      · exact absurd hx (by simp)
    | false =>
      rw [names_of_isIdent_eq_false hident, mem_append]
      obtain ⟨-, ⟨-, -, -, -, rfl⟩ | ⟨-, bs, hfuncs, hmatch⟩⟩ :=
        h.neverAbsent.matchNode_cases hident hm
      · exact absurd hx (by simp)
      · obtain ⟨extra, hlookup, hextra⟩ := h.lookup_of_matchArgs hargs hmatch x
        rw [hlookup, Option.isSome_or, Bool.or_eq_true] at hx
        rcases hx with hbs | hmore
        · rcases hfuncs with ⟨-, -, rfl⟩ | ⟨f, g, hf, -, hfg⟩
          · exact absurd hbs (by simp)
          · obtain ⟨hmem, hparam⟩ := hfunc f hf g bs hfg x hbs
            rw [hf]
            exact ⟨.inl hmem, hparam⟩
        · obtain ⟨hmem, hparam⟩ := hextra hmore
          exact ⟨.inr hmem, hparam⟩

/-- Matching arguments binds none of the parameters that stand elsewhere. -/
theorem IsPlain.lookup_eq_of_matchArgs (h : IsPlain params) {bs : Bindings} {names : List String}
    (hlin : IsLinear params (names ++ namesList ps)) {x : String} (hx : x ∈ names)
    (hm : matchArgs params false (operandsOf params ps) args bs = .ok (some m)) :
    m.lookup x = bs.lookup x := by
  obtain ⟨extra, hlookup, hextra⟩ := h.lookup_of_matchArgs
    (fun q _ b found hqb => h.bindsOnly_of_matchNode b found hqb) hm x
  cases extra with
  | none => rw [hlookup, Option.or_none]
  | some a =>
    obtain ⟨hmem, hparam⟩ := hextra rfl
    exact absurd hmem (hlin.not_mem_of_mem hparam hx)

/-! ### The filled pattern -/

/-- The pattern `p`, filled with the bindings of any match, agrees with the node. -/
def FillsBack (params : Parameters) (p : Node) : Prop :=
  ∀ n m, IsLinear params p.names → p.wellFormed = true → n.wellFormed = true →
    matchNode params p n = .ok (some m) → (p.fill m).alike Kind.agrees n = true

/-- Filled arguments agree with the arguments they match.  The bindings `bs` from before have nothing
    to do with the names in the arguments. -/
theorem IsPlain.fillList_agrees (h : IsPlain params) {bs : Bindings}
    (hps : ∀ p ∈ ps, FillsBack params p) (hlin : IsLinear params (namesList ps))
    (hpwf : ∀ p ∈ ps, p.wellFormed = true) (hawf : ∀ a ∈ args, a.wellFormed = true)
    (hfresh : ∀ x ∈ namesList ps, bs.lookup x = none)
    (hm : matchArgs params false (operandsOf params ps) args bs = .ok (some m)) :
    alikeList Kind.agrees (fillList m ps) args = true := by
  induction ps generalizing args bs with
  | nil =>
    rcases h.matchArgs_cases hm with ⟨-, rfl, -⟩ | ⟨p, ps', a, args', found, hnil, -⟩
    · rfl
    · exact absurd hnil (by simp)
  | cons p ps ih =>
    rcases h.matchArgs_cases hm with ⟨hnil, -⟩ | ⟨_, _, a, args', found, hcons, rfl, hpa, hrest⟩
    · exact absurd hnil (by simp)
    obtain ⟨rfl, rfl⟩ := List.cons.inj hcons
    rw [namesList] at hlin hfresh
    have hfound : BindsOnly params p.names found := h.bindsOnly_of_matchNode a found hpa
    -- a name of the head is bound by the match of the head or not at all
    have hhead : ∀ x ∈ p.names, m.lookup x = found.lookup x := by
      intro x hx
      rw [h.lookup_eq_of_matchArgs hlin hx hrest, Bindings.lookup_union,
        hfresh x (mem_append_left _ hx), Option.none_or]
    have hfresh' : ∀ x ∈ namesList ps, (bs.union found).lookup x = none := by
      intro x hx
      rw [Bindings.lookup_union, hfresh x (mem_append_right _ hx), Option.none_or,
        hfound.lookup_eq_none hlin hx]
    rw [fillList, alikeList, Bool.and_eq_true, fill_congr hhead]
    refine ⟨hps p mem_cons_self a found hlin.left (hpwf p mem_cons_self)
      (hawf a mem_cons_self) hpa, ?_⟩
    exact ih (fun q hq => hps q (mem_cons_of_mem p hq)) hlin.right
      (fun q hq => hpwf q (mem_cons_of_mem p hq))
      (fun b hb => hawf b (mem_cons_of_mem a hb)) hfresh' hrest

/-- **Matching is sound up to operators.**  Whatever a pattern with plain parameters matches, the
    pattern with the bound nodes filled in has the same classes, names, literals and shape. -/
theorem IsPlain.fillsBack (h : IsPlain params) (p : Node) : FillsBack params p := by
  induction p using Node.induction with
  | step p hfunc hargs _ =>
    intro n m hlin hpwf hnwf hm
    obtain ⟨hparts, hfwf, hawf⟩ := (wellFormed_iff p).mp hpwf
    obtain ⟨hnparts, hgwf, hbwf⟩ := (wellFormed_iff n).mp hnwf
    cases hident : p.isIdent with
    | true =>
      obtain ⟨s, hs⟩ := kind_of_isIdent hident
      rw [matchNode_name hs, Except.ok.injEq] at hm
      rw [fill_name hs]
      rcases h.matchName_cases hm with ⟨rfl, -⟩ | ⟨rfl, hn⟩
      · rw [lookup_cons_self]
        exact alike_refl Kind.agrees_refl n
      · -- the node is the very name that stands in the pattern
        rw [hs, Kind.hasParts] at hparts
        rw [hn, Kind.hasParts] at hnparts
        rw [lookup_nil, Option.getD_none]
        refine alike_of_text_eq hpwf hnwf (by rw [hs, hn]) (by simp_all) (by simp_all)
          (by simp_all) ?_
        have hps : p.text = s := text_of_leafText? (by rw [hs]; rfl)
        have hns : n.text = s := text_of_leafText? (by rw [hn]; rfl)
        rw [hps, hns]
    | false =>
      rw [names_of_isIdent_eq_false hident] at hlin
      obtain ⟨hclass, ⟨hpf, hnf, hargs', htext, rfl⟩ | ⟨hsome, bs, hfuncs, hmatch⟩⟩ :=
        h.neverAbsent.matchNode_cases hident hm
      · rw [fill_nil]
        exact alike_of_text_eq hpwf hnwf hclass hpf hnf hargs' htext
      · have hkind : p.kind.agrees n.kind = true := by
          have hnleaf := Kind.leafText?_eq_none hsome hnparts
          have hpleaf : p.kind.leafText? = none := by
            rw [← Option.not_isSome_iff_eq_none, Kind.leafText?_isSome_eq, hclass,
              ← Kind.leafText?_isSome_eq, hnleaf]
            simp
          simp [Kind.agrees, Kind.sameClass, hclass, hpleaf, hnleaf]
        -- what is applied binds none of the parameters in the arguments
        have hfresh : ∀ x ∈ namesList p.args, bs.lookup x = none := by
          intro x hx
          rcases hfuncs with ⟨-, -, rfl⟩ | ⟨f, g, hf, -, hfg⟩
          · rfl
          · rw [hf] at hlin
            exact BindsOnly.lookup_eq_none (h.bindsOnly_of_matchNode g bs hfg) hlin hx
        have hfill : alikeOption Kind.agrees (fillOption m p.func) n.func = true := by
          rcases hfuncs with ⟨hpf, hnf, -⟩ | ⟨f, g, hf, hg, hfg⟩
          · rw [hpf, hnf]
            rfl
          · rw [hf] at hlin ⊢
            rw [hg]
            -- the arguments bind none of the parameters in what is applied
            have hcongr : ∀ x ∈ f.names, m.lookup x = bs.lookup x := fun x hx =>
              h.lookup_eq_of_matchArgs hlin hx hmatch
            show (f.fill m).alike Kind.agrees g = true
            rw [fill_congr hcongr]
            exact hfunc f hf g bs hlin.left (hfwf f hf) (hgwf g hg) hfg
        rw [fill_of_isIdent_eq_false hident, alike_iff, ← alikeOption_eq]
        exact ⟨hkind, hfill, h.fillList_agrees hargs hlin.right hawf hbwf hfresh hmatch⟩

/-- **When a match means what it says.**  A pattern with plain parameters, none of which stands twice,
    is filled in to a tree that agrees with the matched node.  It is the node itself, operators
    included, exactly when the operators of the two are the same: the matcher never compares them. -/
theorem fill_coincides_iff_of_matchNode {p n : Node} {m : Bindings} (hplain : IsPlain params)
    (hlin : IsLinear params p.names) (hp : p.wellFormed = true) (hn : n.wellFormed = true)
    (hm : matchNode params p n = .ok (some m)) :
    (p.fill m).alike Kind.agrees n = true ∧
      ((p.fill m).alike Kind.coincides n = true ↔ (p.fill m).operators = n.operators) := by
  have hagrees := hplain.fillsBack p n m hlin hp hn hm
  exact ⟨hagrees, Node.alike_coincides_iff n hagrees⟩

/-- The pattern `f(a, b in 1)` with a parameter for any node and one for a name. -/
def samplePattern : Node :=
  Node.ofCall (Node.ident "f")
    [Node.ident "a", Node.ofBinary .plain "in" (Node.ident "b") (Node.ofDigits "1")]

def sampleParameters : Parameters :=
  [("a", Node.ident "a"), ("b", Node.ofBinary .typed ":" (Node.ident "b") (Node.ident "Identifier"))]

/-- The node `f(g(2), y in 1)`. -/
def sampleNode : Node :=
  Node.ofCall (Node.ident "f")
    [Node.ofCall (Node.ident "g") [Node.ofDigits "2"],
      Node.ofBinary .plain "in" (Node.ident "y") (Node.ofDigits "1")]

def sampleBindings : Bindings :=
  [("a", Node.ofCall (Node.ident "g") [Node.ofDigits "2"]), ("b", Node.ident "y")]

theorem sample_fill_coincides :
    matchNode sampleParameters samplePattern sampleNode = .ok (some sampleBindings) ∧
      (samplePattern.fill sampleBindings).alike Kind.agrees sampleNode = true ∧
      ((samplePattern.fill sampleBindings).alike Kind.coincides sampleNode = true ↔
        (samplePattern.fill sampleBindings).operators = sampleNode.operators) := by
  have hplain : IsPlain sampleParameters := by decide
  have hlin : IsLinear sampleParameters samplePattern.names := by decide
  exact ⟨rfl, fill_coincides_iff_of_matchNode hplain hlin (by decide) (by decide) rfl⟩

/-- `a in b` matches `x + y`, although `x in y` is another expression. -/
theorem matchNode_in_add :
    let pattern := Node.ofBinary .plain "in" (Node.ident "a") (Node.ident "b")
    let node := Node.ofBinary .plain "+" (Node.ident "x") (Node.ident "y")
    let bindings := [("a", Node.ident "x"), ("b", Node.ident "y")]
    matchNode [("a", Node.ident "a"), ("b", Node.ident "b")] pattern node = .ok (some bindings) ∧
      (pattern.fill bindings).alike Kind.coincides node = false := by
  exact ⟨rfl, by decide⟩

end Macro
end Cppward
