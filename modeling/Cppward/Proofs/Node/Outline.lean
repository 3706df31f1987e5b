import Cppward.Proofs.Grammar.Yield
import Cppward.Proofs.Naming
import Cppward.Proofs.Node.Parts

namespace Cppward

open Grammar Text List Node

/-!
# The outline of a constructor expression

The constructor expression of a tree is a text in which constructors, lists and quoted texts are
nested.  Its outline is this nesting, which does not depend on the style of writing.

* `Outline`, `Node.outline` — the outline of an expression, and of the expression of a tree.
* `toList_constructorText` — the constructor expression of a tree is the text of its outline.
* `Outline.texts` — what is quoted in an outline: names, numbers, operators and literals
  (`mem_texts_outline`).  Control characters in the text of an outline are those of the literals
  (`exists_literal_of_mem_print`).
-/

variable {c : Char} {n : Node} {k : Kind} {hasFunc : Bool} {arity : Nat} {t : String}

/-- A name that starts with a capital letter. -/
def isClassName (s : String) : Bool :=
  match s.toList with
  | [] => false
  | c :: cs => c.isUpper && cs.all Grammar.isNameChar

abbrev ClassName := { s : String // isClassName s = true }

theorem isClassName_className (k : Kind) : isClassName k.className = true := by
  cases k with
  | binary cls _ => cases cls <;> (simp only [Kind.className, Binary.className]; decide)
  | _ =>
    simp only [Kind.className]
    decide

theorem ClassName.exists_cons (name : ClassName) : ∃ c cs, name.val.toList = c :: cs ∧
    c.isUpper = true ∧ ∀ d ∈ cs, isNameChar d = true := by
  obtain ⟨s, hs⟩ := name
  unfold isClassName at hs
  split at hs
  · cases hs
  · next c cs hlist =>
    rw [Bool.and_eq_true, all_eq_true] at hs
    exact ⟨c, cs, hlist, hs.1, hs.2⟩

inductive Outline where
  | nothing
  /-- A fresh name, which stands for what is to be put in its place. -/
  | free (number : Nat)
  /-- A quoted text. -/
  | text (s : String)
  /-- A list of items; `comma` says whether one stands behind the last item. -/
  | list (items : List Outline) (comma : Bool)
  /-- A constructor with its arguments, at an offset. -/
  | apply (name : ClassName) (args : List Outline) (loc : Nat)

theorem Outline.induction {motive : Outline → Prop} (nothing : motive .nothing)
    (free : ∀ number, motive (.free number)) (text : ∀ s, motive (.text s))
    (list : ∀ items comma, (∀ f ∈ items, motive f) → motive (.list items comma))
    (apply : ∀ name args loc, (∀ f ∈ args, motive f) → motive (.apply name args loc)) :
    ∀ f, motive f
  | .nothing => nothing
  | .free number => free number
  | .text s => text s
  | .list items comma => list items comma fun f _ => Outline.induction nothing free text list apply f
  | .apply name args loc =>
      apply name args loc fun f _ => Outline.induction nothing free text list apply f
termination_by f => sizeOf f
decreasing_by
  · have hlt : sizeOf f < sizeOf items := sizeOf_lt_of_mem ‹f ∈ items›
    simp only [Outline.list.sizeOf_spec]
    omega
  · have hlt : sizeOf f < sizeOf args := sizeOf_lt_of_mem ‹f ∈ args›
    simp only [Outline.apply.sizeOf_spec]
    omega

/-- The type that a list of arguments carries in a style. -/
def Style.listType (s : Style) : List Char := if s.typedLists then ": Node".toList else []

namespace Outline

mutual
/-- The text of an outline in a style, where `quoted` writes the texts in it. -/
def print (s : Style) (quoted : String → List Char) : Outline → List Char
  | .nothing => "None".toList
  | .free number => (freshName number).toList
  | .text t => quoted t
  | .list items comma => '[' :: (printItems s quoted comma items ++ ']' :: s.listType)
  | .apply name args loc =>
    name.val.toList ++ '(' :: (printItems s quoted true args ++ ((s.offset loc).toList ++ [')']))

/-- Items with commas between them, and behind the last one if `comma` says so. -/
def printItems (s : Style) (quoted : String → List Char) (comma : Bool) : List Outline → List Char
  | [] => []
  | f :: fs =>
    f.print s quoted ++ ((if comma || !fs.isEmpty then ", ".toList else []) ++
      printItems s quoted comma fs)
end

mutual
def texts : Outline → List String
  | .nothing => []
  | .free _ => []
  | .text s => [s]
  | .list items _ => textsList items
  | .apply _ args _ => textsList args

def textsList : List Outline → List String
  | [] => []
  | f :: fs => f.texts ++ textsList fs
end

theorem textsList_eq (fs : List Outline) : textsList fs = fs.flatMap texts :=
  eq_flatMap rfl (fun _ _ => rfl) fs

variable {s : Style} {quoted : String → List Char} {comma : Bool} {fs : List Outline}

theorem printItems_true (fs : List Outline) :
    printItems s quoted true fs = fs.flatMap fun f => f.print s quoted ++ ", ".toList := by
  induction fs with
  | nil => rfl
  | cons f fs ih =>
    rw [printItems, ih, flatMap_cons, append_assoc, Bool.true_or, if_pos rfl]

theorem printItems_append (fs gs : List Outline) :
    printItems s quoted true (fs ++ gs) =
      printItems s quoted true fs ++ printItems s quoted true gs := by
  rw [printItems_true, printItems_true, printItems_true, flatMap_append]

/-- The characters of items are those of the items, and of the commas between them. -/
theorem mem_printItems (h : c ∈ printItems s quoted comma fs) :
    c ∈ ", ".toList ∨ ∃ f ∈ fs, c ∈ f.print s quoted := by
  induction fs with
  | nil => cases h
  | cons f fs ih =>
    rw [printItems, mem_append, mem_append] at h
    rcases h with h | h | h
    · exact .inr ⟨f, mem_cons_self, h⟩
    · split at h
      · exact .inl h
      · cases h
    · exact (ih h).imp_right fun ⟨g, hg, hc⟩ => ⟨g, mem_cons_of_mem f hg, hc⟩

end Outline

/-! ### The outline of a tree -/

def affixOutline : Option Affix → Outline
  | none => .nothing
  | some a => .apply ⟨"Identifier", by decide⟩ [.text a.name] a.loc

/-- The arguments of the constructor of a kind of node. -/
def Kind.outlineArgs (func : List Outline) (args : List Outline) : Kind → List Outline
  | .name t => [.text t]
  | .int digits tail | .float digits tail => [.text digits, affixOutline tail]
  | .str t lead tail => [.text t, affixOutline lead, affixOutline tail]
  | .unary op | .trailing op => [.text op, .list args false]
  | .binary _ op => [.text op, .list args true]
  | _ => func ++ [.list args true]

namespace Node

mutual
/-- The outline of the constructor expression of a tree. -/
def outline : Node → Outline
  | ⟨info, kind, func, args, _⟩ =>
    .apply ⟨kind.className, isClassName_className kind⟩
      (kind.outlineArgs (outlineOption func) (outlineList args))
      info.loc

def outlineOption : Option Node → List Outline
  | none => []
  | some n => [n.outline]

def outlineList : List Node → List Outline
  | [] => []
  | n :: ns => n.outline :: outlineList ns
end

theorem outlineOption_eq (func : Option Node) : outlineOption func = func.toList.map outline := by
  cases func <;> rfl

theorem outlineList_eq (ns : List Node) : outlineList ns = ns.map outline :=
  eq_map rfl (fun _ _ => rfl) ns

theorem outline_eq (n : Node) : n.outline = .apply ⟨n.kind.className, isClassName_className n.kind⟩
    (n.kind.outlineArgs (n.func.toList.map outline) (n.args.map outline)) n.info.loc := by
  obtain ⟨info, kind, func, args, type⟩ := n
  rw [outline, outlineOption_eq, outlineList_eq]

end Node

/-! ### Quoting -/

/-- A character of a literal, as it is written between quotes. -/
def escapeChar (c : Char) : List Char :=
  if c = '\\' then ['\\', '\\']
  else if c = '\n' then ['\\', 'n']
  else if c = '"' then ['\\', '"']
  else [c]

theorem escapeChar_of_ne (h₁ : c ≠ '\\') (h₂ : c ≠ '\n') (h₃ : c ≠ '"') : escapeChar c = [c] := by
  rw [escapeChar, if_neg h₁, if_neg h₂, if_neg h₃]

/-- A text in quotes, where `w` writes its characters. -/
def quoteWith (w : Char → List Char) (t : String) : List Char :=
  '"' :: (t.toList.flatMap w ++ ['"'])

theorem toList_escape (s : String) :
    (escape s).toList = quoteWith escapeChar s := by
  -- the three replacements, one behind the other, act on each character alone
  have hchar : ∀ c : Char, ((if c = '\\' then ['\\', '\\'] else [c]).flatMap fun c =>
      (if c = '\n' then ['\\', 'n'] else [c]).flatMap fun c =>
        if c = '"' then ['\\', '"'] else [c]) = escapeChar c := by
    intro c
    induction c using literal_cases with
    | backslash | newline | quote => rfl
    | other c h₁ h₂ h₃ => simp [escapeChar_of_ne h₁ h₂ h₃, h₁, h₂, h₃]
  rw [escape]
  simp only [String.toList_append, Text.replace, String.toList_ofList]
  rw [show "\\".toList = ['\\'] by decide, show "\n".toList = ['\n'] by decide,
    show "\"".toList = ['"'] by decide, Text.replaceAll_singleton, Text.replaceAll_singleton,
    Text.replaceAll_singleton, flatMap_assoc, flatMap_assoc]
  rw [show "\\\\".toList = ['\\', '\\'] by decide, show "\\n".toList = ['\\', 'n'] by decide,
    show "\\\"".toList = ['\\', '"'] by decide]
  simp only [hchar]
  rfl

/-- A text that is written between quotes as it is. -/
def IsPlain (s : String) : Prop := ∀ c ∈ s.toList, c ≠ '\\' ∧ c ≠ '\n' ∧ c ≠ '"'

theorem escape_of_isPlain {s : String} (h : IsPlain s) : escape s = "\"" ++ s ++ "\"" := by
  have hsame : s.toList.flatMap escapeChar = s.toList := by
    rw [IsPlain] at h
    generalize s.toList = cs at h
    induction cs with
    | nil => rfl
    | cons c cs ih =>
      obtain ⟨⟨h₁, h₂, h₃⟩, hcs⟩ := forall_mem_cons.mp h
      rw [flatMap_cons, ih hcs, escapeChar_of_ne h₁ h₂ h₃]
      rfl
  rw [← String.toList_inj, toList_escape, quoteWith, hsame]
  simp

theorem isPlain_of_isWord {s : String} (h : IsWord s) : IsPlain s := by
  intro c hc
  have hword := h c hc
  refine ⟨?_, ?_, ?_⟩ <;>
  · rintro rfl
    exact absurd hword (by decide)

theorem isPlain_of_isNumeral {s : String} (h : IsNumeral s) : IsPlain s := by
  intro c hc
  have hnumeral := h c hc
  refine ⟨?_, ?_, ?_⟩ <;>
  · rintro rfl
    exact absurd hnumeral (by decide)

theorem isPlain_of_mem_operatorTexts {s : String} (h : s ∈ operatorTexts) : IsPlain s := by
  unfold IsPlain
  revert s
  decide

/-! ### The text of a tree -/

/-- Texts are written in quotes, with escape sequences. -/
def quote (s : String) : List Char := (escape s).toList

theorem quote_eq : quote = quoteWith escapeChar := funext toList_escape

theorem quote_of_isPlain {s : String} (h : IsPlain s) : quote s = '"' :: (s.toList ++ ['"']) := by
  rw [quote, escape_of_isPlain h]
  simp

theorem toList_affix (s : Style) {a : Option Affix} (h : IsAffix a) :
    (s.affix a).toList = (affixOutline a).print s quote := by
  cases a with
  | none => rfl
  | some a =>
    have hname := quote_of_isPlain (isPlain_of_isWord (h a rfl))
    unfold Style.affix Style.name
    simp [affixOutline, Outline.print, Outline.printItems_true, hname]

theorem toList_listEnd (s : Style) : s.listEnd.toList = ']' :: (s.listType ++ ", ".toList) := by
  rw [Style.listEnd, Style.listType]
  split <;> decide

theorem constructorTexts_eq (s : Style) (ns : List Node) :
    constructorTexts s ns = ns.map (constructorText s) :=
  eq_map rfl (fun _ _ => rfl) ns

section

variable {s : Style} {args : List Node}
  (hargs : ∀ a ∈ args, (a.constructorText s).toList = a.outline.print s quote)

include hargs

theorem toList_join_constructorTexts :
    (String.join ((constructorTexts s args).map (· ++ ", "))).toList =
      Outline.printItems s quote true (args.map outline) := by
  rw [constructorTexts_eq, String.toList_join, Outline.printItems_true, flatMap_map,
    flatMap_map, flatMap_map]
  refine flatMap_congr fun a ha => ?_
  rw [String.toList_append, hargs a ha]

theorem toList_join_constructorTexts_of_one (hone : args.length = 1) :
    (String.join (constructorTexts s args)).toList =
      Outline.printItems s quote false (args.map outline) := by
  obtain ⟨a, rfl⟩ := length_eq_one_iff.mp hone
  simp [constructorTexts_eq, Outline.printItems, hargs]

end

/-- **The constructor expression of a grammatical tree is the text of its outline.** -/
theorem toList_constructorText (s : Style) (h : n.Grammatical) :
    (n.constructorText s).toList = n.outline.print s quote := by
  induction h with
  | @make kind func args loc hkind _ _ ihfunc ihargs =>
    have hitems := toList_join_constructorTexts ihargs
    have hfunc : (constructorOption s func).toList =
        Outline.printItems s quote true (func.toList.map outline) := by
      cases func with
      | none => rfl
      | some f => simp [constructorOption, Outline.printItems, ihfunc f rfl]
    rw [outline_eq, Outline.print]
    -- names, numbers and operators are written without escapes, which makes no difference for them
    cases kind with
    | name t =>
      have ht := quote_of_isPlain (isPlain_of_isWord hkind.1)
      rw [make, constructorText]
      unfold Style.name
      simp [Kind.className, Kind.outlineArgs, Outline.printItems_true, Outline.print, ht]
    | int digits tail | float digits tail =>
      have hdigits := quote_of_isPlain (isPlain_of_isNumeral hkind.1)
      have htail := toList_affix s hkind.2.1
      simp [make, constructorText, Kind.outlineArgs, Outline.printItems_true,
        Outline.print, hdigits, htail]
    | str t lead tail =>
      have hlead := toList_affix s hkind.2.1
      have htail := toList_affix s hkind.2.2.1
      simp [make, constructorText, Kind.outlineArgs, Outline.printItems_true,
        Outline.print, quote, hlead, htail]
    | unary op | trailing op =>
      have hop := quote_of_isPlain (isPlain_of_mem_operatorTexts hkind.1)
      have hone := toList_join_constructorTexts_of_one ihargs hkind.2.2
      simp only [make, constructorText, Kind.outlineArgs, Outline.printItems,
        Outline.print, String.toList_append, hop, hone, toList_listEnd]
      simp
    | binary cls op =>
      have hop := quote_of_isPlain (isPlain_of_mem_operatorTexts hkind.1)
      simp only [make, constructorText, Kind.outlineArgs, Outline.printItems,
        Outline.print, String.toList_append, hop, hitems, toList_listEnd]
      simp
    | _ =>
      simp only [make, constructorText, Kind.outlineArgs, Outline.printItems_append,
        Outline.printItems, Outline.print, String.toList_append, hfunc, hitems, toList_listEnd]
      simp

/-! ### The texts in a tree -/

namespace Kind

/-- The names that a node of a kind shows: its own, and those of its affixes. -/
def nameTexts : Kind → List String
  | .name s => [s]
  | .int _ tail | .float _ tail => tail.toList.map Affix.name
  | .str _ lead tail => lead.toList.map Affix.name ++ tail.toList.map Affix.name
  | _ => []

def literals : Kind → List String
  | .str s _ _ => [s]
  | _ => []

/-- The other texts: digits and operators. -/
def symbols : Kind → List String
  | .int digits _ | .float digits _ => [digits]
  | .unary op | .trailing op | .binary _ op => [op]
  | _ => []

/-- All texts of a kind, in the order in which they are written. -/
def texts (k : Kind) : List String := k.symbols ++ (k.literals ++ k.nameTexts)

end Kind

namespace Node

def nameTexts (n : Node) : List String := n.walk.flatMap fun m => m.kind.nameTexts

/-- The texts of the string literals in a tree. -/
def literals (n : Node) : List String := n.walk.flatMap fun m => m.kind.literals

end Node

theorem texts_affixOutline (a : Option Affix) :
    (affixOutline a).texts = a.toList.map Affix.name := by
  cases a <;> rfl

/-- The arguments of a constructor hold the texts of a node, and those of its parts. -/
theorem texts_outlineArgs {kind : Kind} {func : Option Node} {args : List Node}
    (h : kind.Fits func.isSome args.length) :
    Outline.textsList (kind.outlineArgs (func.toList.map outline) (args.map outline)) =
      kind.texts ++ (func.toList ++ args).flatMap fun m => m.outline.texts := by
  have hnone : func.isSome = false → func = none := by
    rw [Option.isSome_eq_false_iff, Option.isNone_iff_eq_none]
    exact id
  rw [Outline.textsList_eq]
  cases kind with
  | name t =>
    rw [hnone h.2.1, length_eq_zero_iff.mp h.2.2]
    rfl
  | int digits tail | float digits tail =>
    rw [hnone h.2.2.1, length_eq_zero_iff.mp h.2.2.2]
    simp only [Kind.outlineArgs, flatMap_cons, texts_affixOutline]
    rfl
  | str t lead tail =>
    rw [hnone h.2.2.2.1, length_eq_zero_iff.mp h.2.2.2.2]
    simp [Kind.outlineArgs, texts_affixOutline, Outline.texts, Kind.texts, Kind.symbols,
      Kind.literals, Kind.nameTexts]
  | unary op | trailing op =>
    rw [hnone h.2.1, Kind.outlineArgs, flatMap_cons, flatMap_singleton, Outline.texts,
      Outline.texts, Outline.textsList_eq, flatMap_map]
    rfl
  | binary cls op =>
    rw [hnone h.2.2, Kind.outlineArgs, flatMap_cons, flatMap_singleton, Outline.texts,
      Outline.texts, Outline.textsList_eq, flatMap_map]
    rfl
  | _ =>
    simp only [Kind.outlineArgs, flatMap_append, flatMap_singleton, Outline.texts,
      Outline.textsList_eq, flatMap_map]
    rfl

/-- An outline holds the texts of all nodes. -/
theorem texts_outline (h : n.Grammatical) :
    n.outline.texts = n.walk.flatMap fun m => m.kind.texts := by
  induction h with
  | @make kind func args loc hkind _ _ ihfunc ihargs =>
    have hparts : ∀ m ∈ func.toList ++ args,
        m.outline.texts = m.walk.flatMap fun k => k.kind.texts := by
      intro m hm
      rcases mem_append.mp hm with hm | hm
      · exact ihfunc m (Option.mem_toList.mp hm)
      · exact ihargs m hm
    rw [outline_eq, Outline.texts, walk_eq, flatMap_cons, flatMap_assoc]
    refine (texts_outlineArgs hkind).trans ?_
    rw [flatMap_congr hparts, parts]
    simp [make]

theorem Node.Grammatical.of_mem_walk {m : Node} (h : n.Grammatical) (hm : m ∈ n.walk) :
    m.Grammatical := by
  induction h with
  | @make kind func args loc hkind hfunc hargs ihfunc ihargs =>
    rw [walk_eq] at hm
    rcases mem_cons.mp hm with rfl | hm
    · exact .make hkind hfunc hargs
    · obtain ⟨part, hpart, hm⟩ := mem_flatMap.mp hm
      simp only [Node.parts, Node.make, Option.toList_none, append_nil, mem_append,
        Option.mem_toList] at hpart
      rcases hpart with hpart | hpart
      · exact ihfunc part hpart hm
      · exact ihargs part hpart hm

theorem Kind.Fits.isWord (h : k.Fits hasFunc arity) (ht : t ∈ k.nameTexts) : IsWord t := by
  have haffix : ∀ {a : Option Affix}, IsAffix a → t ∈ a.toList.map Affix.name → IsWord t := by
    intro a ha hmem
    obtain ⟨x, hx, rfl⟩ := mem_map.mp hmem
    exact ha x (Option.mem_toList.mp hx)
  cases k with
  | name s => exact mem_singleton.mp ht ▸ h.1
  | int digits tail | float digits tail => exact haffix h.2.1 ht
  | str s lead tail =>
    rcases mem_append.mp ht with ht | ht
    · exact haffix h.2.1 ht
    · exact haffix h.2.2.1 ht
  | _ => cases ht

theorem Kind.Fits.isLiteral (h : k.Fits hasFunc arity) (ht : t ∈ k.literals) : IsLiteral t := by
  cases k with
  | str s lead tail => exact mem_singleton.mp ht ▸ h.1
  | _ => cases ht

theorem Kind.Fits.symbol (h : k.Fits hasFunc arity)
    (ht : t ∈ k.symbols) : IsNumeral t ∨ t ∈ operatorTexts := by
  cases k with
  | int digits tail | float digits tail => exact .inl (mem_singleton.mp ht ▸ h.1)
  | unary op | trailing op | binary cls op => exact .inr (mem_singleton.mp ht ▸ h.1)
  | _ => cases ht

/-- What is quoted in the expression of a grammatical tree. -/
theorem mem_texts_outline (h : n.Grammatical) (ht : t ∈ n.outline.texts) :
    (IsNumeral t ∨ t ∈ operatorTexts) ∨ (t ∈ n.literals ∧ IsLiteral t) ∨
      (t ∈ n.nameTexts ∧ IsWord t) := by
  rw [texts_outline h] at ht
  obtain ⟨m, hm, ht⟩ := mem_flatMap.mp ht
  obtain ⟨hasFunc, arity, hkind⟩ : ∃ hasFunc arity, m.kind.Fits hasFunc arity := by
    cases h.of_mem_walk hm with
    | make hkind _ _ => exact ⟨_, _, hkind⟩
  rw [Kind.texts, mem_append, mem_append] at ht
  refine ht.imp hkind.symbol
    (Or.imp (fun ht => ⟨?_, hkind.isLiteral ht⟩) fun ht => ⟨?_, hkind.isWord ht⟩)
  all_goals exact mem_flatMap.mpr ⟨m, hm, ht⟩

theorem mem_texts_of_mem_nameTexts (h : n.Grammatical) (ht : t ∈ n.nameTexts) :
    t ∈ n.outline.texts := by
  rw [texts_outline h]
  obtain ⟨m, hm, ht⟩ := mem_flatMap.mp ht
  exact mem_flatMap.mpr ⟨m, hm, mem_append_right _ (mem_append_right _ ht)⟩

/-! ### Control characters -/

/-- A control character between quotes comes from a character of the text. -/
theorem exists_of_mem_quoteWith {w : Char → List Char} (hc : IsControl c)
    (h : c ∈ quoteWith w t) : ∃ d ∈ t.toList, c ∈ w d := by
  rw [quoteWith, mem_cons, mem_append, mem_singleton] at h
  rcases h with rfl | h | rfl
  · exact absurd hc (by decide)
  · exact mem_flatMap.mp h
  · exact absurd hc (by decide)

theorem not_isControl_of_mem_className (name : ClassName) :
    ∀ c ∈ name.val.toList, ¬IsControl c := by
  obtain ⟨c, cs, hname, hc, hcs⟩ := name.exists_cons
  rw [hname]
  exact forall_mem_cons.mpr ⟨not_isControl_of (by decide) hc,
    fun d hd => not_isControl_of (by decide) (hcs d hd)⟩

theorem not_isControl_of_mem_offset (s : Style) (loc : Nat) :
    ∀ c ∈ (s.offset loc).toList, ¬IsControl c := by
  have hdigits : ∀ c ∈ (toString loc).toList, ¬IsControl c := by
    intro c hc
    rw [Nat.toString_eq_repr, Nat.toList_repr] at hc
    exact not_isControl_of (by decide) (Nat.isDigit_of_mem_toDigits (by decide) (by decide) hc)
  rw [Style.offset]
  split
  · rw [String.toList_append, String.toList_append, forall_mem_append, forall_mem_append]
    exact ⟨⟨by decide, hdigits⟩, by decide⟩
  · decide

/-- The control characters in the text of an outline are those of the texts in it. -/
theorem exists_text_of_mem_print {s : Style} {quoted : String → List Char} {f : Outline}
    (hc : IsControl c) (h : c ∈ f.print s quoted) : ∃ t ∈ f.texts, c ∈ quoted t := by
  have hitems : ∀ {comma : Bool} {fs : List Outline},
      (∀ f ∈ fs, c ∈ f.print s quoted → ∃ t ∈ f.texts, c ∈ quoted t) →
      c ∈ Outline.printItems s quoted comma fs → ∃ t ∈ Outline.textsList fs, c ∈ quoted t := by
    intro comma fs ih h
    rcases Outline.mem_printItems h with h | ⟨f, hf, h⟩
    · exact absurd hc ((by decide : ∀ c ∈ ", ".toList, ¬IsControl c) c h)
    · obtain ⟨t, ht, hct⟩ := ih f hf h
      exact ⟨t, Outline.textsList_eq fs ▸ mem_flatMap.mpr ⟨f, hf, ht⟩, hct⟩
  induction f using Outline.induction with
  | nothing => exact absurd hc ((by decide : ∀ c ∈ "None".toList, ¬IsControl c) c h)
  | free number =>
    exact absurd hc (not_isControl_of (by decide) (isNameChar_of_mem_freshName h))
  | text t => exact ⟨t, mem_singleton_self t, h⟩
  | list items comma ih =>
    rw [Outline.print, mem_cons, mem_append, mem_cons] at h
    rcases h with rfl | h | rfl | h
    · exact absurd hc (by decide)
    · exact hitems ih h
    · exact absurd hc (by decide)
    · rw [Style.listType] at h
      split at h
      · exact absurd hc ((by decide : ∀ c ∈ ": Node".toList, ¬IsControl c) c h)
      · cases h
  | apply name args loc ih =>
    rw [Outline.print, mem_append, mem_cons, mem_append, mem_append,
      mem_singleton] at h
    rcases h with h | rfl | h | h | rfl
    · exact absurd hc (not_isControl_of_mem_className name c h)
    · exact absurd hc (by decide)
    · exact hitems ih h
    · exact absurd hc (not_isControl_of_mem_offset s loc c h)
    · exact absurd hc (by decide)

/-- Nor do names, numbers and operators have control characters, so that a text with one is that of
    a literal. -/
theorem mem_literals_of_isControl (hn : n.Grammatical)
    (ht : t ∈ n.outline.texts) (hc : IsControl c) (hmem : c ∈ t.toList) : t ∈ n.literals := by
  rcases mem_texts_outline hn ht with (hnum | hop) | ⟨hlit, -⟩ | ⟨-, hword⟩
  · exact absurd hc
      (not_isControl_of (p := fun c => Text.isDecimal c || c == '.') (by decide) (hnum c hmem))
  · exact absurd hc ((by decide : ∀ t ∈ operatorTexts, ∀ c ∈ t.toList, ¬IsControl c) t hop c hmem)
  · exact hlit
  · exact absurd hc
      (not_isControl_of (p := fun c => isNameChar c || c == '.') (by decide) (hword c hmem))

/-- The control characters in the text of a tree are those of its literals. -/
theorem exists_literal_of_mem_print {s : Style} {quoted : String → List Char}
    (hquoted : ∀ t, ∀ c ∈ quoted t, IsControl c → c ∈ t.toList) (hn : n.Grammatical)
    (hc : IsControl c) (h : c ∈ n.outline.print s quoted) : ∃ t ∈ n.literals, c ∈ quoted t := by
  obtain ⟨t, ht, hct⟩ := exists_text_of_mem_print hc h
  exact ⟨t, mem_literals_of_isControl hn ht hc (hquoted t c hct hc), hct⟩

end Cppward
