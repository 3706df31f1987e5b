import Cppward.Macro.Quote
import Cppward.Proofs.Source.Quotation

namespace Cppward

open Grammar Source Text List Node

/-!
# Constructor expressions with free names

In the constructor expression of a tree, fresh names are made free: the constructor call of such a
name is replaced by the name.  This is done in the text, by one replacement for each name.

* `frees_sketch` — a replacement makes one more name free, and changes nothing else.
* `exists_quotation` — the text that results is read as the tree of the sketch.
-/

variable {s : String} {kind : Kind}

namespace Node

def freeNumber? (free : List Nat) : Kind → Option Nat
  | .name s => free.find? fun k => freshName k == s
  | _ => none

mutual
/-- The outline of the constructor expression of a tree in which some fresh names are free. -/
def sketch (free : List Nat) : Node → Outline
  | ⟨info, kind, func, args, _⟩ =>
    match freeNumber? free kind with
    | some number => .free number
    | none =>
      .apply ⟨kind.className, isClassName_className kind⟩
        (kind.outlineArgs (sketchOption free func) (sketchList free args)) info.loc

def sketchOption (free : List Nat) : Option Node → List Outline
  | none => []
  | some n => [n.sketch free]

def sketchList (free : List Nat) : List Node → List Outline
  | [] => []
  | n :: ns => n.sketch free :: sketchList free ns
end

variable {free : List Nat} {n : Node}

theorem sketch_of_free {number : Nat} (h : freeNumber? free n.kind = some number) :
    n.sketch free = .free number := by
  obtain ⟨info, kind, func, args, type⟩ := n
  rw [sketch, h]

theorem sketch_of_not (h : freeNumber? free n.kind = none) :
    n.sketch free = .apply ⟨n.kind.className, isClassName_className n.kind⟩
      (n.kind.outlineArgs (n.func.toList.map (sketch free)) (n.args.map (sketch free)))
      n.info.loc := by
  have hlist : ∀ ns, sketchList free ns = ns.map (sketch free) :=
    eq_map rfl fun _ _ => rfl
  have hoption : ∀ o, sketchOption free o = o.toList.map (sketch free) := by
    intro o
    cases o <;> rfl
  obtain ⟨info, kind, func, args, type⟩ := n
  rw [sketch, h, hlist, hoption]

theorem freeNumber?_nil (kind : Kind) : freeNumber? [] kind = none := by
  cases kind <;> rfl

theorem sketch_nil (n : Node) : n.sketch [] = n.outline := by
  induction n using Node.induction with
  | step n ihfunc ihargs _ =>
    have hfunc : n.func.toList.map (sketch []) = n.func.toList.map outline :=
      map_congr_left fun f hf => ihfunc f (Option.mem_toList.mp hf)
    rw [sketch_of_not (freeNumber?_nil n.kind), outline_eq, hfunc, map_congr_left ihargs]

end Node

/-! ### Replacement in quoted texts -/

namespace Source

/-- What the constructor call of a name starts with. -/
def callStart : List Char := "Identifier(".toList

def nameCall (s : String) : List Char := callStart ++ '"' :: (s.toList ++ "\", )".toList)

theorem toList_name (s : String) : (Style.program.name s 0).toList = nameCall s := by
  have hstart : "Identifier(\"".toList = callStart ++ ['"'] := by decide
  have hend : "\", )".toList = "\", ".toList ++ (Style.program.offset 0).toList ++ ")".toList := by
    decide
  unfold nameCall Style.name
  rw [String.toList_append, String.toList_append, String.toList_append,
    String.toList_append, hstart, hend, append_assoc, append_assoc, append_assoc,
    append_assoc, append_assoc]
  rfl

/-- A start of a quoted text that holds a quote is the whole text. -/
theorem eq_of_prefix_escaped {u w cs rest : List Char} (hu : ∀ d ∈ u, d ≠ '"' ∧ d ≠ '\\')
    (h : u ++ '"' :: w <+: cs.flatMap escapeChar ++ '"' :: rest) : u = cs ∧ w <+: rest := by
  induction cs generalizing u with
  | nil =>
    cases u with
    | nil => exact ⟨rfl, (cons_prefix_cons.mp h).2⟩
    | cons d u => exact absurd (cons_prefix_cons.mp h).1 (hu d mem_cons_self).1
  | cons c cs ih =>
    rw [flatMap_cons, append_assoc] at h
    -- an escape sequence starts with a backslash, which neither the text nor a quote does
    have hescape : ∀ x, escapeChar c ≠ ['\\', x] := by
      intro x hx
      rw [hx] at h
      cases u with
      | nil => exact absurd (cons_prefix_cons.mp h).1 (by decide)
      | cons d u => exact (hu d mem_cons_self).2 (cons_prefix_cons.mp h).1
    induction c using literal_cases with
    | backslash => exact absurd rfl (hescape '\\')
    | newline => exact absurd rfl (hescape 'n')
    | quote => exact absurd rfl (hescape '"')
    | other c h₁ h₂ h₃ =>
      rw [escapeChar_of_ne h₁ h₂ h₃] at h
      cases u with
      | nil => exact absurd (cons_prefix_cons.mp h).1.symm h₃
      | cons d u =>
        obtain ⟨rfl, hrest⟩ := cons_prefix_cons.mp h
        obtain ⟨rfl, hw⟩ := ih (fun e he => hu e (mem_cons_of_mem d he)) hrest
        exact ⟨rfl, hw⟩

/-! ### Replacement of a constructor call -/

section Replacement

variable {number : Nat} {u v w rest : List Char}

/-- The constructor calls of a fresh name in a text are replaced by the name, where the text is not
    followed by a small letter. -/
def Frees (number : Nat) (u v : List Char) : Prop :=
  ∀ rest, rest.head? ≠ some 'c' →
    replaceAll (nameCall (freshName number)) (freshName number).toList (u ++ rest) =
      v ++ replaceAll (nameCall (freshName number)) (freshName number).toList rest

/-- The text and the start of a constructor call differ at some place. -/
def parts (u : List Char) : Bool := !u.isPrefixOf callStart && !callStart.isPrefixOf u

/-- At no place of the text a constructor call of a name may start. -/
def spares (u : List Char) : Bool := u.tails.all fun t => t.isEmpty || parts t

theorem Frees.step {c : Char} (h : ∀ rest, rest.head? ≠ some 'c' →
      ¬nameCall (freshName number) <+: c :: (u ++ rest)) (hu : Frees number u v) :
    Frees number (c :: u) (c :: v) := by
  intro rest hrest
  rw [cons_append, replaceAll_cons _ _ (h rest hrest), hu rest hrest, cons_append]

theorem starts_nameCall (s : String) : callStart <+: nameCall s := prefix_append ..

theorem Frees.prepend (h : spares w = true) (hu : Frees number u v) :
    Frees number (w ++ u) (w ++ v) := by
  induction w with
  | nil => exact hu
  | cons c w ih =>
    rw [spares, tails_cons, all_cons, Bool.and_eq_true] at h
    refine .step (fun rest _ hprefix => ?_) (ih h.2)
    have hparts : parts (c :: w) = true := h.1
    rw [parts, Bool.and_eq_true, Bool.not_eq_true', Bool.not_eq_true'] at hparts
    have hprefix : nameCall (freshName number) <+: (c :: w) ++ (u ++ rest) := by
      rwa [cons_append, ← append_assoc]
    have hstart := (starts_nameCall _).trans hprefix
    rcases prefix_or_prefix_of_prefix hstart (prefix_append (c :: w) _) with h | h
    · rw [List.isPrefixOf_iff_prefix.mpr h] at hparts
      cases hparts.2
    · rw [List.isPrefixOf_iff_prefix.mpr h] at hparts
      cases hparts.1

/-- No constructor call starts with another character than a capital `I`. -/
theorem Frees.cons {c : Char} (hc : c ≠ 'I') (hu : Frees number u v) :
    Frees number (c :: u) (c :: v) := by
  refine .step (fun rest _ hprefix => hc ?_) hu
  exact (cons_prefix_cons.mp ((starts_nameCall _).trans hprefix)).1.symm

theorem frees_of_not_mem (h : 'I' ∉ u) : Frees number u u := by
  induction u with
  | nil => exact fun _ _ => rfl
  | cons c u ih =>
    rw [mem_cons, not_or] at h
    exact (ih h.2).cons (Ne.symm h.1)

theorem Frees.append {v' : List Char} {x : Char} (hu : Frees number u v) (hw : Frees number w v')
    (hhead : w.head? = some x) (hx : x ≠ 'c') : Frees number (u ++ w) (v ++ v') := by
  intro rest hrest
  have hstart : (w ++ rest).head? ≠ some 'c' := by
    rw [head?_append, hhead]
    simpa using hx
  rw [append_assoc, hu _ hstart, hw rest hrest, append_assoc]

/-- A quoted text is left alone: where a constructor call is written in it, its quotes are
    escaped. -/
theorem frees_quote (t : String) : Frees number (quote t) (quote t) := by
  have hescaped : ∀ cs : List Char, Frees number (cs.flatMap escapeChar ++ ['"'])
      (cs.flatMap escapeChar ++ ['"']) := by
    intro cs
    induction cs with
    | nil => exact frees_of_not_mem (by decide)
    | cons c cs ih =>
      rw [flatMap_cons, append_assoc]
      induction c using literal_cases with
      | backslash | newline | quote => exact (ih.cons (by decide)).cons (by decide)
      | other c h₁ h₂ h₃ =>
        have hc := escapeChar_of_ne h₁ h₂ h₃
        rw [hc]
        refine .step (fun rest hrest hprefix => hrest ?_) ih
        have hquoted : c :: (cs.flatMap escapeChar ++ ['"'] ++ rest) =
            (c :: cs).flatMap escapeChar ++ '"' :: rest := by
          rw [flatMap_cons, hc]
          simp
        obtain ⟨-, more, hmore⟩ := eq_of_prefix_escaped (by decide) (hquoted ▸ hprefix)
        obtain ⟨ds, hname, -⟩ := exists_freshName_eq_cons number
        rw [← hmore, hname]
        rfl
  rw [quote_eq, quoteWith]
  exact (hescaped t.toList).cons (by decide)

/-- Other names than the fresh one are left as they are. -/
theorem frees_nameCall_of_ne (h : s ≠ freshName number) :
    Frees number (callStart ++ (quote s ++ ", )".toList)) (callStart ++ (quote s ++ ", )".toList)) := by
  have hcall : callStart = 'I' :: "dentifier(".toList := by decide
  have hclose : "\", )".toList = '"' :: ", )".toList := by decide
  have hend : Frees number (quote s ++ ", )".toList) (quote s ++ ", )".toList) :=
    (frees_quote s).append (frees_of_not_mem (by decide)) (x := ',') (by decide) (by decide)
  have hquote : quote s ++ ", )".toList =
      '"' :: (s.toList.flatMap escapeChar ++ '"' :: ", )".toList) := by
    rw [quote_eq, quoteWith, cons_append, append_assoc, singleton_append]
  rw [hquote] at hend ⊢
  have hstart : Frees number "dentifier(".toList "dentifier(".toList := frees_of_not_mem (by decide)
  have hrest := hstart.append hend rfl (by decide)
  rw [hcall, cons_append]
  refine .step (fun rest _ hprefix => h ?_) hrest
  -- behind the start of the call stands the quoted name
  rw [← cons_append, ← cons_append, ← hcall, nameCall, hclose, append_assoc,
    cons_append, append_assoc, cons_append, prefix_append_right_inj] at hprefix
  have hname := (cons_prefix_cons.mp hprefix).2
  refine String.toList_inj.mp (eq_of_prefix_escaped (fun d hd => ?_) hname).1.symm
  have hd := isNameChar_of_mem_freshName hd
  constructor <;>
  · rintro rfl
    cases hd

theorem frees_nameCall : Frees number (nameCall (freshName number)) (freshName number).toList :=
  fun rest _ => replaceAll_append (by simp [nameCall]) rest

/-! ### Outlines -/

abbrev programText (f : Outline) : List Char := f.print Style.program quote

abbrev programItems (comma : Bool) (fs : List Outline) : List Char :=
  Outline.printItems Style.program quote comma fs

/-- A replacement turns an outline into another one. -/
def FreesOutline (number : Nat) (f g : Outline) : Prop :=
  Frees number (programText f) (programText g)

variable {fs gs : List Outline}

theorem frees_items (h : List.Forall₂ (FreesOutline number) fs gs) (comma : Bool) :
    Frees number (programItems comma fs) (programItems comma gs) := by
  induction h with
  | nil => exact fun _ _ => rfl
  | @cons f g fs gs hf htail ih =>
    have hempty : gs.isEmpty = fs.isEmpty := by
      cases htail <;> rfl
    rw [programItems, programItems, Outline.printItems, Outline.printItems, hempty]
    split
    · have hcomma : Frees number (", ".toList ++ programItems comma fs)
          (", ".toList ++ programItems comma gs) := (ih.cons (by decide)).cons (by decide)
      exact hf.append hcomma rfl (by decide)
    · next hlast =>
      rw [Bool.not_eq_true, Bool.or_eq_false_iff, Bool.not_eq_false', List.isEmpty_iff] at hlast
      have hgs : gs = [] := List.isEmpty_iff.mp (hempty.trans (List.isEmpty_iff.mpr hlast.2))
      rw [hlast.2, hgs, Outline.printItems, append_nil, append_nil, append_nil]
      exact hf

theorem frees_list (h : List.Forall₂ (FreesOutline number) fs gs) (comma : Bool) :
    FreesOutline number (.list fs comma) (.list gs comma) := by
  have hclose : Frees number (']' :: Style.program.listType) (']' :: Style.program.listType) :=
    frees_of_not_mem (by decide)
  exact ((frees_items h comma).append hclose rfl (by decide)).cons (by decide)

theorem frees_apply {name : ClassName} (hname : spares (name.val.toList ++ ['(']) = true)
    (h : List.Forall₂ (FreesOutline number) fs gs) (loc : Nat) :
    FreesOutline number (.apply name fs loc) (.apply name gs loc) := by
  have hclose : Frees number ((Style.program.offset loc).toList ++ [')'])
      ((Style.program.offset loc).toList ++ [')']) := frees_of_not_mem (u := [')']) (by decide)
  have hitems := Frees.prepend hname ((frees_items h true).append hclose rfl (by decide))
  rw [append_assoc, append_assoc] at hitems
  exact hitems

theorem frees_text (t : String) : FreesOutline number (.text t) (.text t) := frees_quote t

theorem programText_name (s : String) (loc : Nat) :
    programText (.apply ⟨"Identifier", by decide⟩ [.text s] loc) =
      callStart ++ (quote s ++ ", )".toList) := by
  have hstart : callStart = "Identifier".toList ++ ['('] := by decide
  have hend : ", )".toList = ", ".toList ++ [')'] := by decide
  have hoffset : (Style.program.offset loc).toList = [] := rfl
  rw [hstart, hend]
  simp only [programText, Outline.print, Outline.printItems, Bool.true_or, if_true, hoffset,
    append_nil, nil_append, append_assoc, singleton_append]

theorem programText_name_of_isPlain (h : IsPlain s) (loc : Nat) :
    programText (.apply ⟨"Identifier", by decide⟩ [.text s] loc) = nameCall s := by
  have hclose : "\", )".toList = '"' :: ", )".toList := by decide
  rw [programText_name, quote_of_isPlain h, nameCall, hclose, cons_append, append_assoc,
    singleton_append]

theorem frees_affix {a : Option Affix} (h : ∀ x ∈ a, x.name ≠ freshName number) :
    FreesOutline number (affixOutline a) (affixOutline a) := by
  cases a with
  | none => exact frees_of_not_mem (u := "None".toList) (by decide)
  | some a =>
    rw [affixOutline, FreesOutline, programText_name]
    exact frees_nameCall_of_ne (h a rfl)

end Replacement

end Source

open Source

/-! ### Trees -/

namespace Node

variable {number : Nat} {free : List Nat} {n : Node}

theorem freeNumber?_append (free : List Nat) (number : Nat) (kind : Kind) :
    freeNumber? (free ++ [number]) kind =
      (freeNumber? free kind).or (if kind = .name (freshName number) then some number else none) := by
  cases kind with
  | name s =>
    rw [freeNumber?, freeNumber?, find?_append, find?_singleton]
    simp only [beq_iff_eq, Kind.name.injEq, @eq_comm String s]
  | _ => simp [freeNumber?]

theorem eq_of_freeNumber? (h : freeNumber? free kind = some number) :
    kind = .name (freshName number) ∧ number ∈ free := by
  cases kind with
  | name s =>
    have hfound := find?_some h
    rw [beq_iff_eq] at hfound
    exact ⟨by rw [hfound], mem_of_find?_eq_some h⟩
  | _ => cases h

/-- The affixes in a tree are not the name with a number. -/
def AffixesSpare (number : Nat) (n : Node) : Prop :=
  ∀ m ∈ n.walk, m.isIdent = false → freshName number ∉ m.kind.nameTexts

theorem spares_className (h : ∀ s, kind ≠ .name s) :
    spares (kind.className.toList ++ ['(']) = true := by
  cases kind with
  | name s => exact absurd rfl (h s)
  | binary cls op => cases cls <;> (simp only [Kind.className, Binary.className]; decide)
  | _ =>
    simp only [Kind.className]
    decide

/-- The arguments of a constructor call, if its parts are turned into others. -/
theorem forall₂_outlineArgs {func func' args args' : List Outline}
    (hkind : ∀ s, kind ≠ .name s) (haffix : freshName number ∉ kind.nameTexts)
    (hfunc : List.Forall₂ (FreesOutline number) func func')
    (hargs : List.Forall₂ (FreesOutline number) args args') :
    List.Forall₂ (FreesOutline number) (kind.outlineArgs func args)
      (kind.outlineArgs func' args') := by
  have hlist := frees_list hargs
  have hone : ∀ {a : Option Affix}, freshName number ∉ a.toList.map Affix.name →
      FreesOutline number (affixOutline a) (affixOutline a) := by
    intro a ha
    refine frees_affix fun x hx hname => ha ?_
    exact mem_map.mpr ⟨x, Option.mem_toList.mpr hx, hname⟩
  cases kind with
  | name s => exact absurd rfl (hkind s)
  | int digits tail | float digits tail => exact .cons (frees_text _) (.cons (hone haffix) .nil)
  | str t lead tail =>
    rw [Kind.nameTexts, mem_append, not_or] at haffix
    exact .cons (frees_text _) (.cons (hone haffix.1) (.cons (hone haffix.2) .nil))
  | unary op | trailing op => exact .cons (frees_text _) (.cons (hlist false) .nil)
  | binary cls op => exact .cons (frees_text _) (.cons (hlist true) .nil)
  | _ => exact rel_append hfunc (.cons (hlist true) .nil)

/-- **One more name becomes free** when its constructor calls are replaced in the text. -/
theorem frees_sketch (hn : n.Grammatical) (haffix : AffixesSpare number n) :
    FreesOutline number (n.sketch free) (n.sketch (free ++ [number])) := by
  induction hn with
  | @make kind func args loc hkind hfunc hargs ihfunc ihargs =>
    have happend := freeNumber?_append free number kind
    cases hfree : freeNumber? free kind with
    | some k =>
      -- the name is free already
      rw [hfree, Option.some_or] at happend
      rw [sketch_of_free hfree, sketch_of_free happend]
      refine frees_of_not_mem fun hmem => ?_
      rw [programText, Outline.print, toList_freshName, mem_append] at hmem
      rcases hmem with hmem | hmem
      · exact absurd hmem (by decide)
      · exact absurd (Nat.isDigit_of_mem_toDigits (by decide) (by decide) hmem) (by decide)
    | none =>
      rw [hfree, Option.none_or] at happend
      by_cases hname : kind = .name (freshName number)
      · -- the name that becomes free
        rw [if_pos hname] at happend
        rw [sketch_of_not hfree, sketch_of_free happend]
        subst hname
        have htext := programText_name_of_isPlain (isPlain_of_isWord hkind.1) loc
        change Frees number (programText (.apply ⟨"Identifier", _⟩ [.text (freshName number)] loc)) _
        rw [htext]
        exact frees_nameCall
      · rw [if_neg hname] at happend
        rw [sketch_of_not hfree, sketch_of_not happend]
        by_cases hident : ∃ s, kind = .name s
        · obtain ⟨s, rfl⟩ := hident
          change Frees number (programText (.apply ⟨"Identifier", _⟩ [.text s] loc))
            (programText (.apply ⟨"Identifier", _⟩ [.text s] loc))
          rw [programText_name]
          refine frees_nameCall_of_ne fun hs => hname ?_
          rw [hs]
        · have hkind : ∀ s, kind ≠ .name s := fun s hs => hident ⟨s, hs⟩
          have hpart : ∀ m ∈ (make kind func args loc).parts, AffixesSpare number m :=
            fun m hm c hc => haffix c (mem_walk_of_mem_parts hm hc)
          have hself : freshName number ∉ kind.nameTexts := by
            refine haffix _ (self_mem_walk _) ?_
            rw [isIdent, name?]
            cases kind with
            | name s => exact absurd rfl (hkind s)
            | _ => rfl
          have hfuncs : List.Forall₂ (FreesOutline number) (func.toList.map (sketch free))
              (func.toList.map (sketch (free ++ [number]))) := by
            rw [forall₂_map_left_iff, forall₂_map_right_iff, forall₂_same]
            intro f hf
            have hf := Option.mem_toList.mp hf
            exact ihfunc f hf (hpart f (func_mem_parts hf))
          have hargs : List.Forall₂ (FreesOutline number) (args.map (sketch free))
              (args.map (sketch (free ++ [number]))) := by
            rw [forall₂_map_left_iff, forall₂_map_right_iff, forall₂_same]
            intro a ha
            exact ihargs a ha (hpart a (arg_mem_parts ha))
          have hspares : spares
              ((⟨kind.className, isClassName_className kind⟩ : ClassName).val.toList ++ ['(']) = true :=
            spares_className hkind
          exact frees_apply hspares (forall₂_outlineArgs hkind hself hfuncs hargs) loc

/-- All names of a list become free one after the other. -/
theorem toList_foldl_replace (hn : n.Grammatical) {numbers : List Nat}
    (haffix : ∀ k ∈ numbers, AffixesSpare k n) :
    ((numbers.map freshName).foldl (fun text name => Text.replace (Style.program.name name 0) name text)
      (n.constructorText Style.program)).toList = programText (n.sketch numbers) := by
  -- generalised over the names that are free already
  have hfold : ∀ (free : List Nat) (text : String), text.toList = programText (n.sketch free) →
      ((numbers.map freshName).foldl
        (fun text name => Text.replace (Style.program.name name 0) name text) text).toList =
        programText (n.sketch (free ++ numbers)) := by
    induction numbers with
    | nil =>
      intro free text htext
      rw [append_nil]
      exact htext
    | cons k numbers ih =>
      intro free text htext
      obtain ⟨hk, hrest⟩ := forall_mem_cons.mp haffix
      have hstep : (Text.replace (Style.program.name (freshName k) 0) (freshName k) text).toList =
          programText (n.sketch (free ++ [k])) := by
        have hfrees : FreesOutline k (n.sketch free) (n.sketch (free ++ [k])) := frees_sketch hn hk
        have hfrees := hfrees [] (by simp)
        rw [append_nil] at hfrees
        rw [Text.replace, String.toList_ofList, toList_name, htext, hfrees]
        exact append_nil _
      rw [map_cons, foldl_cons, ih hrest (free ++ [k]) _ hstep, append_assoc,
        singleton_append]
  have htext := toList_constructorText Style.program hn
  rw [← sketch_nil] at htext
  exact hfold [] _ htext

/-- What is quoted in a sketch is quoted in the whole outline. -/
theorem texts_sketch_subset (n : Node) : (n.sketch free).texts ⊆ n.outline.texts := by
  induction n using Node.induction with
  | step n ihfunc ihargs _ =>
    cases hfree : freeNumber? free n.kind with
    | some k =>
      rw [sketch_of_free hfree]
      exact nil_subset _
    | none =>
      have hmap : ∀ ms : List Node, (∀ m ∈ ms, (m.sketch free).texts ⊆ m.outline.texts) →
          Outline.textsList (ms.map (sketch free)) ⊆ Outline.textsList (ms.map outline) := by
        intro ms hms t ht
        rw [Outline.textsList_eq, flatMap_map] at ht ⊢
        obtain ⟨m, hm, ht⟩ := mem_flatMap.mp ht
        exact mem_flatMap.mpr ⟨m, hm, hms m hm ht⟩
      have hfunc := hmap n.func.toList fun f hf => ihfunc f (Option.mem_toList.mp hf)
      have hargs := hmap n.args ihargs
      rw [sketch_of_not hfree, outline_eq, Outline.texts, Outline.texts]
      cases n.kind with
      | name t => exact List.Subset.refl _
      | int digits tail | float digits tail => exact List.Subset.refl _
      | str t lead tail => exact List.Subset.refl _
      | unary op | trailing op | binary cls op =>
        intro t ht
        simp only [Kind.outlineArgs, Outline.textsList, Outline.texts, append_nil,
          mem_append] at ht ⊢
        exact ht.imp_right fun ht => hargs ht
      | _ =>
        intro t ht
        simp only [Kind.outlineArgs, Outline.textsList_eq, flatMap_append,
          flatMap_singleton, Outline.texts, mem_append] at ht hfunc hargs ⊢
        exact ht.imp (fun ht => hfunc ht) fun ht => hargs ht

end Node

/-! ### Reading -/

namespace Macro

variable {n : Node} {numbers : List Nat}

/-- **The expression of a quotation** is the tree of the sketch in which the names of the unquoted
    parts are free. -/
theorem exists_quotation (hn : n.Grammatical) (haffix : ∀ k ∈ numbers, n.AffixesSpare k)
    (hroot : freeNumber? numbers n.kind = none) (htab : ∀ t ∈ n.literals, '\t' ∉ t.toList)
    (hnames : ∀ s ∈ n.nameTexts, IsLiteral s) :
    ∃ m, quotation n (numbers.map freshName) = .ok m ∧ m.Grammatical ∧
      m.alike (· == ·) ((n.sketch numbers).tree id) = true := by
  have hcontrol : ∀ c ∈ ['\n', '\t'], c ∉ hidden (n.sketch numbers) := by
    intro c hc hmem
    have hctrl := (by decide : ∀ c ∈ ['\n', '\t'], IsControl c) c hc
    obtain ⟨t, ht, hct⟩ := exists_text_of_mem_print hctrl hmem
    obtain ⟨hct, hne⟩ := mem_of_mem_hiddenQuote t hct hctrl
    have hlit := mem_literals_of_isControl hn (texts_sketch_subset n ht) hctrl hct
    rcases mem_pair.mp hc with rfl | rfl
    · exact hne rfl
    · exact htab t hlit hct
  have hsource := toList_foldl_replace hn haffix
  have hrestored : ((n.sketch numbers).tree restored).alike (· == ·) ((n.sketch numbers).tree id) =
      true := by
    rw [tree_alike_iff]
    intro t ht
    exact (restored_eq_iff t).mpr
      ((isLiteral_texts_iff hn).mpr hnames t (texts_sketch_subset n ht))
  rw [sketch_of_not hroot] at hcontrol hsource hrestored ⊢
  obtain ⟨m, hread, hm⟩ := readModule_outline hsource hcontrol
  have hinclude : m.isCallOf "include" = false := by
    rw [isCallOf_of_alike hm, isCallOf_tree (by decide)]
  refine ⟨m, ?_, (grammatical_of_readModule hread).1.args m (mem_singleton_self m),
    (alike_congr hm _).mpr hrestored⟩
  rw [quotation, readProgram_of_readModule hread hinclude]
  rfl

end Macro

end Cppward
