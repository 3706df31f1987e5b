import Cppward.Grammar.Expression
import Cppward.Proofs.Text.Character
import Cppward.Proofs.Text.Replace
import Mathlib.Data.List.TakeWhile

namespace Cppward

open List

/-!
# What the grammar builds

Every tree that the grammar reads consists of nodes of certain forms: names and numbers are words,
operators are those of the levels, calls apply something, and so on.

* `Kind.Fits`, `Node.Grammatical` — these forms.
* `Grammar.Yields` — all values of a reader have a property; one lemma for each combinator.
* `Grammar.yields_expression`, `Grammar.yields_statements` — the grammar yields grammatical trees.
-/

variable {p : Char → Bool} {op : String} {loc : Nat} {func : Node}

namespace Grammar

/-- The text of a name; three dots are one. -/
def IsWord (s : String) : Prop := ∀ c ∈ s.toList, (isNameChar c || c == '.') = true

def IsNumeral (s : String) : Prop := ∀ c ∈ s.toList, (Text.isDecimal c || c == '.') = true

/-- The name of an affix is a word. -/
def IsAffix (a : Option Affix) : Prop := ∀ x ∈ a, IsWord x.name

def operatorTexts : List String :=
  (chainLevels ++ expressionLevels).flatMap fun level => level.operators.map Operator.text

/-- The text of a literal never shows the word that stands for a backslash while a text is read. -/
def IsLiteral (s : String) : Prop := ¬backslashWord.toList <:+: s.toList

end Grammar

open Grammar

/-- The nodes of a kind that the grammar builds: `hasFunc` says whether something is applied, and
    `arity` how many arguments there are. -/
def Kind.Fits (hasFunc : Bool) (arity : Nat) : Kind → Prop
  | .name s => IsWord s ∧ hasFunc = false ∧ arity = 0
  | .int digits tail | .float digits tail =>
    IsNumeral digits ∧ IsAffix tail ∧ hasFunc = false ∧ arity = 0
  | .str s lead tail => IsLiteral s ∧ IsAffix lead ∧ IsAffix tail ∧ hasFunc = false ∧ arity = 0
  | .unary op | .trailing op => op ∈ operatorTexts ∧ hasFunc = false ∧ arity = 1
  | .binary cls op => op ∈ operatorTexts ∧ cls = binaryOf op ∧ hasFunc = false
  | .call oneLiner => oneLiner = false ∧ hasFunc = true
  | .index | .bracedCall | .template => hasFunc = true
  | .parens | .wrapper => hasFunc = false ∧ arity = 1
  | .list | .tuple | .braces | .block | .module => hasFunc = false

/-- The trees that the grammar builds, which have neither labels nor declared types. -/
inductive Node.Grammatical : Node → Prop
  | make {kind : Kind} {func : Option Node} {args : List Node} {loc : Nat}
      (hkind : kind.Fits func.isSome args.length) (hfunc : ∀ f ∈ func, Node.Grammatical f)
      (hargs : ∀ a ∈ args, Node.Grammatical a) : Node.Grammatical (Node.make kind func args loc)

theorem Node.Grammatical.args {n : Node} (h : n.Grammatical) : ∀ a ∈ n.args, a.Grammatical := by
  cases h with
  | make _ _ hargs => exact hargs

namespace Grammar

/-! ### Readers -/

variable {α β : Type} {P : α → Prop} {Q : β → Prop}

/-- Every value that the reader gives has the property. -/
def Yields (p : Reader α) (P : α → Prop) : Prop :=
  ∀ c a c', (p c).value = some (a, c') → P a

namespace Yields

theorem trivial (p : Reader α) : Yields p fun _ => True := fun _ _ _ _ => True.intro

theorem pure {a : α} (h : P a) : Yields (pure a) P := by
  intro c b c' hb
  cases hb
  exact h

theorem bind {p : Reader α} {f : α → Reader β} (hp : Yields p P) (hf : ∀ a, P a → Yields (f a) Q) :
    Yields (p >>= f) Q := by
  intro c b c' hb
  change (Reader.bind p f c).value = _ at hb
  unfold Reader.bind at hb
  split at hb
  · cases hb
  · next a c₁ w ha => exact hf a (hp c a c₁ (by rw [ha])) c₁ b c' hb

theorem seq {p : Reader β} {f : β → Reader α} (hf : ∀ b, Yields (f b) P) : Yields (p >>= f) P :=
  bind (trivial p) fun b _ => hf b

theorem fail : Yields (Reader.fail : Reader α) P := fun _ _ _ h => by cases h

theorem orElse {p q : Reader α} (hp : Yields p P) (hq : Yields q P) : Yields (p <|> q) P := by
  intro c a c' ha
  change (Reader.orElse p (fun _ => q) c).value = _ at ha
  unfold Reader.orElse at ha
  split at ha
  · next r w hr =>
    cases ha
    exact hp c a c' (by rw [hr])
  · exact hq c a c' ha

theorem attempt {p : Reader α} (hp : Yields p P) :
    Yields (Reader.attempt p) fun o => ∀ a ∈ o, P a := by
  intro c o c' ho
  unfold Reader.attempt at ho
  split at ho
  · next a c₁ w ha =>
    cases ho
    rintro _ ⟨⟩
    exact hp c a c' (by rw [ha])
  · cases ho
    exact nofun

theorem settle {p : Reader α} (hp : Yields p P) :
    Yields (Reader.settle p) fun o => ∀ a ∈ o, P a := by
  intro c o c' ho
  unfold Reader.settle at ho
  split at ho
  · next a c₁ w ha =>
    cases ho
    rintro _ ⟨⟩
    exact hp c a c' (by rw [ha])
  · cases ho
    exact nofun

theorem manyUpTo {p : Reader α} (hp : Yields p P) (n : Nat) :
    Yields (Reader.manyUpTo p n) fun as => ∀ a ∈ as, P a := by
  induction n with
  | zero => exact pure nofun
  | succ n ih =>
    refine bind hp.attempt fun o ho => ?_
    cases o with
    | none => exact pure nofun
    | some a => exact bind ih fun as has => pure (forall_mem_cons.mpr ⟨ho a rfl, has⟩)

theorem many {p : Reader α} (hp : Yields p P) : Yields (Reader.many p) fun as => ∀ a ∈ as, P a :=
  fun c as c' h => hp.manyUpTo c.rest.length c as c' h

theorem many1 {p : Reader α} (hp : Yields p P) : Yields (Reader.many1 p) fun as => ∀ a ∈ as, P a :=
  bind hp fun _ ha => bind hp.many fun _ has => pure (forall_mem_cons.mpr ⟨ha, has⟩)

end Yields

/-! ### Tokens -/

/-- Only words are read as names. -/
theorem yields_identHere : Yields Reader.identHere fun a => IsWord a.name := by
  intro c a c' h
  unfold Reader.identHere at h
  split at h
  · cases h
  split at h
  · cases h
  next x rest hrest =>
  split at h
  · next hstart =>
    cases h
    intro d hd
    rw [String.toList_ofList] at hd
    rw [Bool.or_eq_true]
    refine .inl ?_
    rcases mem_cons.mp hd with rfl | hd
    · rw [isNameStart, Bool.or_eq_true] at hstart
      rw [isNameChar, Char.isAlphanum, Bool.or_eq_true, Bool.or_eq_true]
      exact hstart.imp_left .inl
    · exact mem_takeWhile_imp hd
  · cases h

theorem yields_run : Yields (Reader.run p) fun cs => ∀ c ∈ cs, p c = true := by
  intro c cs c' h
  cases h
  exact fun _ hd => mem_takeWhile_imp hd

theorem yields_run1 : Yields (Reader.run1 p) fun cs => ∀ c ∈ cs, p c = true := by
  intro c cs c' h
  change (if (c.rest.takeWhile p).isEmpty then _ else _ : Outcome _).value = _ at h
  split at h
  · cases h
  · cases h
    exact fun _ hd => mem_takeWhile_imp hd

theorem yields_ident : Yields Reader.ident Node.Grammatical := by
  refine .seq fun _ => .bind yields_identHere fun a ha => .pure ?_
  exact .make ⟨ha, rfl, rfl⟩ nofun nofun

theorem isNumeral_ofList {cs : List Char} (h : ∀ c ∈ cs, Text.isDecimal c = true ∨ c = '.') :
    IsNumeral (String.ofList cs) := by
  intro c hc
  rw [String.toList_ofList] at hc
  rw [Bool.or_eq_true, beq_iff_eq]
  exact h c hc

theorem yields_float : Yields Reader.float Node.Grammatical := by
  refine .seq fun loc => .seq fun _ => .bind yields_run1 fun whole hwhole => .seq fun _ =>
    .bind yields_run fun fraction hfraction =>
      .bind yields_identHere.attempt fun tail htail => .pure ?_
  refine .make ⟨isNumeral_ofList fun c hc => ?_, htail, rfl, rfl⟩ nofun nofun
  rcases mem_append.mp hc with hc | hc
  · exact .inl (hwhole c hc)
  · exact (mem_cons.mp hc).symm.imp_left (hfraction c)

theorem yields_integer : Yields Reader.integer Node.Grammatical := by
  refine .seq fun loc => .seq fun _ => .bind yields_run1 fun digits hdigits =>
    .bind yields_identHere.attempt fun tail htail => .pure ?_
  exact .make ⟨isNumeral_ofList fun c hc => .inl (hdigits c hc), htail, rfl, rfl⟩ nofun nofun

theorem isLiteral_literalValue (inner : List Char) : IsLiteral (literalValue inner) := by
  rw [IsLiteral, literalValue, String.toList_ofList]
  exact Text.not_infix_replaceAll (by decide) (by decide) _

theorem yields_literal (quote : Char) : Yields (Reader.literal quote) Node.Grammatical := by
  refine .seq fun loc => .seq fun _ => .bind yields_identHere.attempt fun lead hlead =>
    .seq fun inner => .bind yields_identHere.attempt fun tail htail => .pure ?_
  exact .make ⟨isLiteral_literalValue inner, hlead, htail, rfl, rfl⟩ nofun nofun

/-! ### Levels -/

theorem yields_firstOf (os : List Operator) :
    Yields (Reader.firstOf os) fun op => op ∈ os.map Operator.text := by
  induction os with
  | nil => exact .fail
  | cons o os ih =>
    have hfirst : Yields (Reader.operator o) fun op => op = o.text := by
      cases o <;> exact .seq fun _ => .pure rfl
    refine .orElse (fun c op c' h => ?_) fun c op c' h => mem_cons_of_mem _ (ih c op c' h)
    rw [hfirst c op c' h]
    exact mem_cons_self

theorem grammatical_binary {args : List Node} (hop : op ∈ operatorTexts)
    (hargs : ∀ a ∈ args, a.Grammatical) :
    (Node.make (.binary (binaryOf op) op) none args loc).Grammatical :=
  .make ⟨hop, rfl, rfl⟩ nofun hargs

theorem grammatical_ofBinary {lhs rhs : Node} (hop : op ∈ operatorTexts)
    (hlhs : lhs.Grammatical) (hrhs : rhs.Grammatical) :
    (Node.ofBinary (binaryOf op) op lhs rhs loc).Grammatical :=
  grammatical_binary hop (forall_mem_cons.mpr ⟨hlhs, forall_mem_singleton.mpr hrhs⟩)

theorem grammatical_joinLeft {first : Node} {more : List (String × Node)}
    (hfirst : first.Grammatical) (hmore : ∀ p ∈ more, p.1 ∈ operatorTexts ∧ p.2.Grammatical) :
    (Reader.joinLeft loc first more).Grammatical := by
  rw [Reader.joinLeft]
  induction more generalizing first with
  | nil => exact hfirst
  | cons p more ih =>
    obtain ⟨hp, hmore⟩ := forall_mem_cons.mp hmore
    exact ih (grammatical_ofBinary hp.1 hfirst hp.2) hmore

section Levels

variable {level : Level} {last : Reader Node} (hops : ∀ o ∈ level.operators, o.text ∈ operatorTexts)
  (hlast : Yields last Node.Grammatical)

include hops

theorem yields_operator : Yields (Reader.firstOf level.operators) (· ∈ operatorTexts) := by
  intro c op c' h
  obtain ⟨o, ho, rfl⟩ := mem_map.mp (yields_firstOf level.operators c op c' h)
  exact hops o ho

include hlast

theorem yields_leftChain : Yields (Reader.leftChain level last) Node.Grammatical := by
  have hstep : Yields (do return (← Reader.firstOf level.operators, ← last))
      fun p : String × Node => p.1 ∈ operatorTexts ∧ p.2.Grammatical :=
    .bind (yields_operator hops) fun op hop => .bind hlast fun n hn => .pure ⟨hop, hn⟩
  refine .seq fun loc => .bind hlast fun first hfirst => .bind hstep.settle fun second hsecond => ?_
  cases second with
  | none => exact .pure hfirst
  | some second =>
    refine .bind hstep.many fun more hmore => ?_
    have hall : (Reader.joinLeft loc first (second :: more)).Grammatical :=
      grammatical_joinLeft hfirst
      (forall_mem_cons.mpr ⟨hsecond second rfl, hmore⟩)
    split
    · exact .seq fun _ => .pure hall
    · exact .pure hall

theorem yields_rightChain (n : Nat) : Yields (Reader.rightChain level last n) Node.Grammatical := by
  induction n with
  | zero => exact hlast
  | succ n ih =>
    have hstep : Yields (do return (← Reader.firstOf level.operators,
        ← Reader.rightChain level last n))
        fun p : String × Node => p.1 ∈ operatorTexts ∧ p.2.Grammatical :=
      .bind (yields_operator hops) fun op hop => .bind ih fun n hn => .pure ⟨hop, hn⟩
    refine .seq fun loc => .bind hlast fun first hfirst =>
      .bind hstep.settle fun second hsecond => ?_
    cases second with
    | none => exact .pure hfirst
    | some second =>
      obtain ⟨op, rhs⟩ := second
      obtain ⟨hop, hrhs⟩ := hsecond _ rfl
      refine .bind hstep.many fun more hmore => .pure (grammatical_binary hop ?_)
      refine forall_mem_cons.mpr ⟨hfirst, forall_mem_cons.mpr ⟨hrhs, ?_⟩⟩
      exact forall_mem_map.mpr fun p hp => (hmore p hp).2

theorem yields_beforeChain (n : Nat) :
    Yields (Reader.beforeChain level last n) Node.Grammatical := by
  induction n with
  | zero => exact hlast
  | succ n ih =>
    have hstep : Yields (do return (← Reader.firstOf level.operators,
        ← Reader.beforeChain level last n))
        fun p : String × Node => p.1 ∈ operatorTexts ∧ p.2.Grammatical :=
      .bind (yields_operator hops) fun op hop => .bind ih fun n hn => .pure ⟨hop, hn⟩
    refine .seq fun loc => .bind hstep.settle fun found hfound => ?_
    cases found with
    | none => exact hlast
    | some found =>
      obtain ⟨op, arg⟩ := found
      obtain ⟨hop, harg⟩ := hfound _ rfl
      exact .pure (.make ⟨hop, rfl, rfl⟩ nofun (forall_mem_singleton.mpr harg))

theorem yields_afterChain : Yields (Reader.afterChain level last) Node.Grammatical := by
  refine .seq fun loc => .bind hlast fun first hfirst =>
    .bind (yields_operator hops).many fun ops hall => ?_
  cases ops with
  | nil => exact .pure hfirst
  | cons op ops =>
    have hop := (forall_mem_cons.mp hall).1
    exact .pure (.make ⟨hop, rfl, rfl⟩ nofun (forall_mem_singleton.mpr hfirst))

theorem yields_level : Yields (level.reader last) Node.Grammatical := by
  intro c n c' h
  unfold Level.reader at h
  split at h
  · exact yields_leftChain hops hlast c n c' h
  · exact yields_rightChain hops hlast _ c n c' h
  · exact yields_beforeChain hops hlast _ c n c' h
  · exact yields_afterChain hops hlast c n c' h

end Levels

theorem yields_readLevels {levels : List Level} {operand : Reader Node}
    (hlevels : levels ⊆ chainLevels ++ expressionLevels)
    (hoperand : Yields operand Node.Grammatical) :
    Yields (readLevels levels operand) Node.Grammatical := by
  rw [readLevels]
  induction levels generalizing operand with
  | nil => exact hoperand
  | cons level levels ih =>
    obtain ⟨hlevel, hlevels⟩ := cons_subset.mp hlevels
    refine ih hlevels (yields_level (fun o ho => ?_) hoperand)
    exact mem_flatMap.mpr ⟨level, hlevel, mem_map_of_mem ho⟩

/-! ### Expressions -/

abbrev AllGrammatical (ns : List Node) : Prop := ∀ n ∈ ns, n.Grammatical

theorem allGrammatical_getD {o : Option (List Node)} (h : ∀ ns ∈ o, AllGrammatical ns) :
    AllGrammatical (o.getD []) := by
  cases o with
  | none => exact nofun
  | some ns => exact h ns rfl

theorem grammatical_applied {kind : Kind} {args : List Node}
    (hkind : kind.Fits true args.length) (hfunc : func.Grammatical) (hargs : AllGrammatical args) :
    (Node.make kind (some func) args loc).Grammatical :=
  .make hkind (fun _ hf => Option.mem_some.mp hf ▸ hfunc) hargs

/-- An application makes a grammatical node out of one. -/
def Application.Fits (a : Application) : Prop :=
  a.kind.Fits true a.args.length ∧ AllGrammatical a.args ∧
    ∀ s ∈ a.selection, s.1 ∈ operatorTexts ∧ s.2.Grammatical

theorem grammatical_apply {a : Application} (loc : Nat) (ha : a.Fits)
    (hfunc : func.Grammatical) : (a.apply loc func).Grammatical := by
  obtain ⟨hkind, hargs, hselection⟩ := ha
  have hcall : (Node.make a.kind (some func) a.args loc).Grammatical :=
    grammatical_applied hkind hfunc hargs
  unfold Application.apply
  split
  · exact hcall
  · next op part hsome =>
    obtain ⟨hop, hpart⟩ := hselection (op, part) hsome
    exact grammatical_ofBinary hop hcall hpart

section Expressions

variable {self : Reader Node} (hself : Yields self Node.Grammatical)

include hself

theorem yields_list1 : Yields (Reader.list1 self) AllGrammatical :=
  .bind hself fun _ ha => .bind (Yields.many (.seq fun _ => hself)) fun _ has =>
    .pure (forall_mem_cons.mpr ⟨ha, has⟩)

theorem yields_list0 : Yields (Reader.list0 self) AllGrammatical :=
  .bind (yields_list1 hself).attempt fun _ ho => .pure (allGrammatical_getD ho)

theorem yields_listTrailing : Yields (Reader.listTrailing self) AllGrammatical := by
  have hitems : Yields (do
      let items ← Reader.list1 self
      let _ ← Reader.attempt (Reader.symbol ",")
      return items) AllGrammatical :=
    .bind (yields_list1 hself) fun _ hitems => .seq fun _ => .pure hitems
  exact .bind hitems.attempt fun _ ho => .pure (allGrammatical_getD ho)

theorem yields_templateArgs : Yields (Reader.templateArgs self) AllGrammatical :=
  .seq fun _ => .bind (yields_list0 hself) fun _ hargs => .seq fun _ => .seq fun _ => .pure hargs

theorem yields_named : Yields (Reader.named self) Node.Grammatical := by
  refine .bind yields_ident fun name hname =>
    .bind (yields_templateArgs hself).attempt fun o ho => ?_
  cases o with
  | none => exact .pure hname
  | some args => exact .pure (grammatical_applied rfl hname (ho args rfl))

theorem yields_parenthesized : Yields (Reader.parenthesized self) Node.Grammatical := by
  refine .seq fun loc => .seq fun _ => .bind hself.attempt fun o ho => ?_
  cases o with
  | none => exact .seq fun _ => .seq fun _ => .pure (.make rfl nofun nofun)
  | some e =>
    have he := ho e rfl
    refine .seq fun closed => ?_
    cases closed with
    | some _ =>
      refine .bind (yields_templateArgs hself).attempt fun o ho => ?_
      cases o with
      | none => exact .pure he
      | some args => exact .pure (grammatical_applied rfl he (ho args rfl))
    | none =>
      refine .seq fun _ => .bind (yields_listTrailing hself) fun more hmore =>
        .seq fun _ => .pure ?_
      exact .make rfl nofun (forall_mem_cons.mpr ⟨he, hmore⟩)

theorem yields_listLiteral : Yields (Reader.listLiteral self) Node.Grammatical :=
  .seq fun _ => .seq fun _ => .bind (yields_listTrailing hself) fun _ hargs => .seq fun _ =>
    .pure (.make rfl nofun hargs)

theorem yields_bracesLiteral : Yields (Reader.bracesLiteral self) Node.Grammatical :=
  .seq fun _ => .seq fun _ => .bind (yields_list0 hself) fun _ hargs => .seq fun _ =>
    .pure (.make rfl nofun hargs)

theorem yields_atom : Yields (Reader.atom self) Node.Grammatical :=
  .orElse (yields_literal '"') <| .orElse (yields_literal '\'') <| .orElse (yields_named hself) <|
    .orElse (yields_listLiteral hself) <| .orElse (yields_bracesLiteral hself) <|
      yields_parenthesized hself

theorem yields_chain : Yields (Reader.chain self) Node.Grammatical :=
  yields_readLevels (subset_append_left ..) (yields_atom hself)

theorem yields_block : Yields (Reader.block self) Node.Grammatical := by
  have hstatement : Yields (do
      let statement ← self
      let _ ← Reader.many1 (Reader.symbol ";")
      return statement) Node.Grammatical :=
    .bind hself fun _ hn => .seq fun _ => .pure hn
  exact .seq fun _ => .seq fun _ => .seq fun _ => .bind hstatement.many1 fun _ hargs =>
    .pure (.make rfl nofun hargs)

theorem yields_looseArgs : Yields (Reader.looseArgs self) AllGrammatical := by
  refine .bind hself.attempt fun first hfirst =>
    .bind (Yields.many (.seq fun _ => hself.attempt)) fun more hmore => .pure fun n hn => ?_
  obtain ⟨o, ho, hon⟩ := mem_filterMap.mp hn
  rcases mem_cons.mp ho with rfl | ho
  · exact hfirst n hon
  · exact hmore o ho n hon

theorem yields_callArgs : Yields (Reader.callArgs self) AllGrammatical := by
  have hpart : Yields (do return (← Reader.block self) :: (← Reader.looseArgs self))
      AllGrammatical :=
    .bind (yields_block hself) fun _ hb => .bind (yields_looseArgs hself) fun _ has =>
      .pure (forall_mem_cons.mpr ⟨hb, has⟩)
  refine .seq fun _ => .bind (yields_looseArgs hself) fun args hargs =>
    .bind hpart.many fun parts hparts =>
    .seq fun _ => .pure fun n hn => ?_
  rcases mem_append.mp hn with hn | hn
  · exact hargs n hn
  · obtain ⟨part, hpart, hn⟩ := mem_flatten.mp hn
    exact hparts part hpart n hn

theorem yields_bracketed : Yields (Reader.bracketed self) fun p =>
    p.1.Fits true p.2.length ∧ AllGrammatical p.2 :=
  .orElse (.bind (yields_callArgs hself) fun _ hargs => .pure ⟨⟨rfl, rfl⟩, hargs⟩) <|
    .orElse (.seq fun _ => .bind (yields_list0 hself) fun _ hargs =>
      .seq fun _ => .pure ⟨rfl, hargs⟩) <|
      .seq fun _ => .bind (yields_list0 hself) fun _ hargs => .seq fun _ => .pure ⟨rfl, hargs⟩

theorem yields_application : Yields (Reader.application self) Application.Fits := by
  have hselection : Yields (do
      return (← Reader.firstOf [.symbol ".", .symbol "->", .symbol "::"], ← Reader.chain self))
      fun s : String × Node => s.1 ∈ operatorTexts ∧ s.2.Grammatical := by
    refine .bind (yields_firstOf _) fun op hop => .bind (yields_chain hself) fun part hpart =>
      .pure ⟨?_, hpart⟩
    exact (by decide : ∀ op ∈ [Operator.symbol ".", .symbol "->", .symbol "::"].map Operator.text,
      op ∈ operatorTexts) op hop
  exact .bind (yields_bracketed hself) fun _ hbracketed => .bind hselection.attempt fun _ hs =>
    .pure ⟨hbracketed.1, hbracketed.2, hs⟩

theorem yields_applied : Yields (Reader.applied self) Node.Grammatical := by
  refine .seq fun loc => .bind (yields_chain hself) fun first hfirst =>
    .bind (yields_application hself).many fun applications happlications => .pure ?_
  induction applications generalizing first with
  | nil => exact hfirst
  | cons a applications ih =>
    obtain ⟨ha, happlications⟩ := forall_mem_cons.mp happlications
    exact ih _ (grammatical_apply loc ha hfirst) happlications

theorem yields_operand : Yields (Reader.operand self) Node.Grammatical :=
  .orElse (yields_applied hself) <| .orElse yields_float <| .orElse yields_integer <|
    .seq fun _ => .seq fun _ => .pure (.make ⟨by unfold IsWord; decide, rfl, rfl⟩ nofun nofun)

end Expressions

/-- **Expressions are grammatical.** -/
theorem yields_expression (n : Nat) : Yields (expression n) Node.Grammatical := by
  induction n with
  | zero => exact .fail
  | succ n ih =>
    refine .seq fun loc => .bind (yields_readLevels (subset_append_right ..)
      (yields_operand ih))
      fun e he => .pure ?_
    exact .make ⟨rfl, rfl⟩ nofun (forall_mem_singleton.mpr he)

theorem yields_statements (n : Nat) : Yields (statements n) fun ns => ∀ n ∈ ns, n.Grammatical := by
  have hstatement : Yields (do
      let statement ← expression n
      Reader.symbol ";"
      return statement) Node.Grammatical :=
    .bind (yields_expression n) fun _ hn => .seq fun _ => .pure hn
  exact .bind hstatement.many1 fun _ hargs => .seq fun _ => .pure hargs

end Grammar

end Cppward
