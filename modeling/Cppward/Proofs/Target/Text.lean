import Cppward.Proofs.Target.Reading

namespace Cppward.Target

open List

/-!
# Texts that spell out operands

`Spells code f` says what a text contributes wherever an operand may stand: the operands and
operators `f`, or nothing at all if the text spoils every expression that it is part of.

* `Spells.word`, `Spells.sign`, `Contributes.group`, `Spells.joined`, `Spells.member`, `Spells.call`,
  `SpellsClass.maker` — the ways in which generated text is composed,
-/

variable {code a op b s : String} {cs : List Char} {ts : Option (List Token)} {f : Option Flat}
  {follows : List Char → Prop} {codes : List String} {fs : List (Option Flat)}

/-- The text contributes the operands `f`; with `none`, it cannot be part of an expression. -/
def Contributes (code : String) (f : Option Flat) : Prop :=
  ∃ ts, LexesBefore Stops code.toList ts ∧ Option.Rel (fun ts f => Reads ts f ∧ Skips ts) ts f

/-- The text contributes the operands `f`, and may follow an operator that it touches. -/
structure Spells (code : String) (f : Option Flat) : Prop where
  starts : StartsOperand code.toList
  contributes : Contributes code f

theorem contributes_of_lexes (hlex : LexesBefore follows cs ts)
    (hfollows : ∀ rest, Stops rest → follows rest)
    (hrel : Option.Rel (fun ts f => Reads ts f ∧ Skips ts) ts f) (hcode : code.toList = cs) :
    Contributes code f :=
  ⟨ts, by rw [hcode]; exact hlex.mono hfollows, hrel⟩

theorem stops_nil : Stops [] := by simp [Stops]

theorem stops_cons {c : Char} (h : (mark? c).isSome = true) (rest : List Char) :
    Stops (c :: rest) := by
  intro d hd
  obtain rfl : c = d := by simpa using hd
  exact h

theorem Spells.read_eq (h : Spells code f) : read code = f.map Flat.reading := by
  obtain ⟨-, ts, hlex, hrel⟩ := h
  have hcode := hlex [] stops_nil
  rw [append_nil] at hcode
  cases hrel with
  | none => simp [read, hcode]
  | @some ts f hts =>
    have hrun := hts.1 [] [] []
    rw [Flat.onto_start] at hrun
    simp [read, hcode, lex, Progress.start, hrun, Progress.reading?, Flat.reading]

/-! ### Pieces -/

theorem StartsOperand.append {a : List Char} (h : StartsOperand a) (b : List Char) :
    StartsOperand (a ++ b) := by
  obtain ⟨c, hc, hstart⟩ := h
  cases a with
  | nil => simp at hc
  | cons d a => exact ⟨c, hc, hstart⟩

theorem startsOperand_word {w : List Char} (hne : w ≠ []) (hword : ∀ c ∈ w, isWordChar c = true) :
    StartsOperand w := by
  obtain ⟨c, w, rfl⟩ := exists_cons_of_ne_nil hne
  exact ⟨c, rfl, .inl (hword c mem_cons_self)⟩

/-- No operator has the first character of an operand inside. -/
theorem endsOperator_of_startsOperand {rest : List Char} (h : StartsOperand rest) :
    EndsOperator rest := by
  obtain ⟨c, hc, hstart⟩ := h
  have hinner : ∀ o ∈ operators, ∀ c ∈ o.drop 1, isWordChar c = false ∧ c ≠ '(' ∧ c ≠ '!' := by
    have hall : (operators.all fun o => (o.drop 1).all fun c =>
        !isWordChar c && (c != '(' && c != '!')) = true := by decide
    intro o ho c hc
    simpa using all_eq_true.mp (all_eq_true.mp hall o ho) c hc
  intro d hd o ho hmem
  obtain rfl : c = d := Option.mem_unique hc hd
  have hc' := hinner o ho c hmem
  rcases hstart with h | h | h <;> simp_all

theorem lexesBefore_spaced {o : List Char} (ho : o ∈ operators) :
    LexesBefore (fun _ => True) ([' '] ++ (o ++ [' '])) (some [.blank, .op o, .blank]) := by
  have hblank : LexesBefore (fun _ => True) [' '] (some [.blank]) := lexesBefore_mark rfl rfl
  exact hblank.append ((lexesBefore_op ho).append hblank
    fun rest _ => (stops_cons (by decide) rest).endsOperator) fun _ _ => trivial

theorem lexesBefore_opening : LexesBefore (fun _ => True) ['('] (some [.opening .round]) :=
  lexesBefore_mark rfl rfl

theorem lexesBefore_closing : LexesBefore (fun _ => True) [')'] (some [.closing .round]) :=
  lexesBefore_mark rfl rfl

/-! ### Words, signs, parentheses and operators -/

theorem Spells.word {s : String} (hne : s.toList ≠ [])
    (hword : ∀ c ∈ s.toList, isWordChar c = true) :
    Spells s (some (.single (.name (canonical s)))) := by
  have hlex := (lexesBefore_word hne hword).mono fun _ h => Stops.stopsWord h
  refine ⟨startsOperand_word hne hword, _, hlex, .some ⟨?_, ?_⟩⟩
  · simpa using reads_word s.toList
  · exact skips_single (by simp)

/-- A prefix operator touches the operand that it stands before. -/
theorem Spells.sign (h : Spells code f) (hop : op.toList ∈ operators) (hsign : op ∈ signOperators) :
    Contributes (op ++ code) (f.map (.sign op)) := by
  obtain ⟨hstart, ts, hlex, hrel⟩ := h
  have hall := (lexesBefore_op hop).append hlex
    fun rest _ => endsOperator_of_startsOperand (hstart.append rest)
  refine contributes_of_lexes hall (fun _ h => h) ?_ (by simp)
  cases hrel with
  | none => exact .none
  | some hts =>
    refine .some ⟨?_, (skips_single (by simp)).append hts.2⟩
    simpa using hts.1.sign (o := op.toList) (by simpa using hsign)

theorem Contributes.group (h : Contributes code f) :
    Spells ("(" ++ code ++ ")") (f.map fun f => .single f.reading) := by
  obtain ⟨ts, hlex, hrel⟩ := h
  have hall := lexesBefore_opening.append
    (hlex.append lexesBefore_closing fun rest _ => stops_cons (by decide) rest) fun _ _ => trivial
  refine ⟨⟨'(', by simp, by simp⟩,
    contributes_of_lexes hall (fun _ _ => trivial) ?_ (by simp)⟩
  cases hrel with
  | none => exact .none
  | some hts => exact .some ⟨hts.1.group, hts.2.bracketed .round⟩

theorem Spells.joined {g : Option Flat} (ha : Spells a f) (hb : Spells b g)
    (hop : op.toList ∈ operators) (hbinary : (precedences.lookup op).isSome = true) :
    Spells (a ++ " " ++ op ++ " " ++ b) (f.bind fun f => g.map (f.join op)) := by
  obtain ⟨hstart, ts, hlex, hrel⟩ := ha
  obtain ⟨-, us, hlex', hrel'⟩ := hb
  have hright := (lexesBefore_spaced hop).append hlex' fun _ _ => trivial
  have hall := hlex.append hright fun rest _ => stops_cons (by decide) _
  have harrow : op ≠ "->" := by
    rintro rfl
    exact absurd hbinary (by decide)
  refine ⟨by simpa using hstart.append _, contributes_of_lexes hall (fun _ h => h) ?_ (by simp)⟩
  cases hrel with
  | none => exact .none
  | some hts =>
    cases hrel' with
    | none => exact .none
    | some hus =>
      have hspaced : Skips [.blank, .op op.toList, .blank] := fun _ _ _ _ => rfl
      refine .some ⟨?_, hts.2.append (hspaced.append hus.2)⟩
      simpa using hts.1.joined hus.1 (o := op.toList) (by simpa using harrow) (by simpa using hbinary)

theorem Spells.member (ha : Spells a f) (hne : s.toList ≠ [])
    (hword : ∀ c ∈ s.toList, isWordChar c = true) : Spells (a ++ " " ++ "->" ++ " " ++ s)
      (f.map fun f => { f with last := .member f.last (.name (canonical s)) }) := by
  obtain ⟨hstart, ts, hlex, hrel⟩ := ha
  have hname := (lexesBefore_word hne hword).mono fun _ h => Stops.stopsWord h
  have hright := (lexesBefore_spaced (o := ['-', '>']) (by decide)).append hname fun _ _ => trivial
  have hall := hlex.append hright fun rest _ => stops_cons (by decide) _
  refine ⟨by simpa using hstart.append _, contributes_of_lexes hall (fun _ h => h) ?_ (by simp)⟩
  cases hrel with
  | none => exact .none
  | some hts =>
    have hspaced : Skips [.blank, .op ['-', '>'], .blank, .word s.toList] := fun _ _ _ _ => rfl
    refine .some ⟨?_, hts.2.append hspaced⟩
    simpa using hts.1.member s.toList

theorem Spells.member_none (ha : Spells a f) (hb : Spells b none) :
    Spells (a ++ " " ++ "->" ++ " " ++ b) none := by
  obtain ⟨hstart, ts, hlex, hrel⟩ := ha
  obtain ⟨-, us, hlex', hrel'⟩ := hb
  have hright := (lexesBefore_spaced (o := ['-', '>']) (by decide)).append hlex' fun _ _ => trivial
  have hall := hlex.append hright fun rest _ => stops_cons (by decide) _
  refine ⟨by simpa using hstart.append _, contributes_of_lexes hall (fun _ h => h) ?_ (by simp)⟩
  cases hrel'
  rw [both_none, both_none]
  exact .none

/-! ### Arguments -/

/-- What stands between the texts of two arguments. -/
def separatorText (spaced : Bool) : String := if spaced then ", " else ","

theorem lexesBefore_separator (spaced : Bool) :
    LexesBefore (fun _ => True) (separatorText spaced).toList (some (separator spaced)) := by
  have hcomma : LexesBefore (fun _ => True) [','] (some [.comma]) := lexesBefore_mark rfl rfl
  have hblank : LexesBefore (fun _ => True) [' '] (some [.blank]) := lexesBefore_mark rfl rfl
  cases spaced with
  | false => exact hcomma
  | true => exact hcomma.append hblank fun _ _ => trivial

/-- Texts that contribute operands one by one, with separators between them. -/
theorem lexesBefore_arguments (spaced : Bool) (h : List.Forall₂ Spells codes fs) :
    ∃ tss : Option (List (List Token)), (∀ us ∈ tss, us.length = codes.length) ∧
      LexesBefore Stops ((separatorText spaced).intercalate codes).toList
        (tss.map (separator spaced).intercalate) ∧
      Option.Rel (List.Forall₂ fun ts f => Reads ts f ∧ Skips ts) tss (fs.mapM fun f => f) := by
  induction h with
  | nil => exact ⟨some [], by simp, fun rest _ => by simp, .some .nil⟩
  | @cons code f codes fs hcode htail ih =>
    obtain ⟨tss, hlen, hlexes, hrels⟩ := ih
    obtain ⟨-, ts, hlex, hrel⟩ := hcode
    refine ⟨ts.bind fun ts => tss.map (ts :: ·), ?_, ?_, ?_⟩
    · cases ts <;> cases tss <;> simp_all
    · cases htail with
      | nil =>
        rw [String.intercalate_singleton]
        cases tss with
        | none => exact absurd hrels (by rintro ⟨⟩)
        | some us =>
          obtain rfl : us = [] := by simpa using hlen us rfl
          cases ts <;> simpa using hlex
      | cons hcode' htail' =>
        have hright := (lexesBefore_separator spaced).append hlexes fun _ _ => trivial
        have hall := hlex.append hright fun rest _ => by
          cases spaced <;> exact stops_cons (by decide) _
        rw [String.intercalate_cons_cons, String.append_assoc, String.toList_append,
          String.toList_append]
        cases ts with
        | none => exact hall
        | some ts =>
          cases tss with
          | none => exact hall
          | some us =>
            obtain ⟨u, us, rfl⟩ := exists_cons_of_length_eq_add_one (hlen us rfl)
            simpa [intercalate_cons_cons] using hall
    · rw [mapM_cons]
      generalize (fs.mapM fun f => f) = gs at hrels ⊢
      cases hrel with
      | none => exact .none
      | some hts =>
        cases hrels with
        | none => exact .none
        | some htss => exact .some (.cons hts htss)

namespace Bracket

def openText : Bracket → String
  | round => "("
  | curly => "\x7b"

def closeText : Bracket → String
  | round => ")"
  | curly => "\x7d"

end Bracket

theorem stops_openText (b : Bracket) (s t : String) (rest : List Char) :
    Stops ((b.openText ++ s ++ t).toList ++ rest) := by
  rw [String.append_assoc, String.toList_append]
  cases b <;> exact stops_cons (by decide) _

/-- Arguments in brackets are cut into the tokens of each of them. -/
theorem lexesBefore_bracketed (spaced : Bool) (b : Bracket) (h : List.Forall₂ Spells codes fs) :
    ∃ tss : Option (List (List Token)),
      LexesBefore (fun _ => True)
        (b.openText ++ (separatorText spaced).intercalate codes ++ b.closeText).toList
        (tss.map fun tss => .opening b :: ((separator spaced).intercalate tss ++ [.closing b])) ∧
      Option.Rel (fun tss fs => List.Forall₂ Reads tss fs ∧ ∀ ts ∈ tss, Skips ts) tss
        (fs.mapM fun f => f) := by
  obtain ⟨tss, -, hlexes, hrels⟩ := lexesBefore_arguments spaced h
  have hopen : LexesBefore (fun _ => True) b.openText.toList (some [.opening b]) := by
    cases b <;> exact lexesBefore_mark rfl rfl
  have hclose : LexesBefore (fun _ => True) b.closeText.toList (some [.closing b]) := by
    cases b <;> exact lexesBefore_mark rfl rfl
  have hall := hopen.append (hlexes.append hclose fun rest _ => by
    cases b <;> exact stops_cons (by decide) _) fun _ _ => trivial
  refine ⟨tss, ?_, ?_⟩
  · rw [String.append_assoc, String.toList_append, String.toList_append]
    cases tss <;> exact hall
  · generalize (fs.mapM fun f => f) = gs at hrels ⊢
    cases hrels with
    | none => exact .none
    | some htss =>
      refine .some ⟨htss.imp fun _ _ h => h.1, ?_⟩
      clear hlexes hall
      induction htss with
      | nil => simp
      | cons hts _ ih => simpa using ⟨hts.2, ih⟩

theorem Spells.call (ha : Spells a f)
    (hargs : List.Forall₂ Spells codes fs) (spaced : Bool) (b : Bracket) :
    Spells (a ++ (b.openText ++ (separatorText spaced).intercalate codes ++ b.closeText))
      (f.bind fun f => (fs.mapM fun f => f).map fun fs =>
        { f with last := Target.call f.last (fs.map Flat.reading) }) := by
  obtain ⟨hstart, ts, hlex, hrel⟩ := ha
  obtain ⟨tss, hlexes, hrels⟩ := lexesBefore_bracketed spaced b hargs
  have hall := hlex.append hlexes fun rest _ => stops_openText b _ _ rest
  refine ⟨by simpa using hstart.append _,
    contributes_of_lexes hall (fun _ _ => trivial) ?_ String.toList_append⟩
  generalize (fs.mapM fun f => f) = gs at hrels ⊢
  cases hrel with
  | none => exact .none
  | some hts =>
    cases hrels with
    | none => exact .none
    | some htss =>
      have hskips := (skips_separator spaced).intercalate htss.2
      exact .some ⟨hts.1.call htss.1 spaced b, hts.2.append (hskips.bracketed b)⟩

/-! ### Instances and pointers -/

/-- The text names the class `s` as the argument of a template, unless one of the operands `fs` in it
    spoils it. -/
structure SpellsClass (code s : String) (fs : Option (List Flat)) : Prop where
  starts : StartsOperand code.toList
  tokens : ∃ ts, LexesBefore StopsWord code.toList ts ∧
    Option.Rel (fun ts _ => Makes ts s ∧ Skips ts) ts fs

theorem spellsClass_of_lexes {fs : Option (List Flat)} (hstart : StartsOperand code.toList)
    (hlex : LexesBefore follows cs ts) (hfollows : ∀ rest, StopsWord rest → follows rest)
    (hrel : Option.Rel (fun ts _ => Makes ts s ∧ Skips ts) ts fs) (hcode : code.toList = cs) :
    SpellsClass code s fs :=
  ⟨hstart, ts, by rw [hcode]; exact hlex.mono hfollows, hrel⟩

theorem SpellsClass.word {s : String} (hne : s.toList ≠ [])
    (hword : ∀ c ∈ s.toList, isWordChar c = true) (hs : s ∉ ["const", "decltype"])
    (fs : List Flat) : SpellsClass s s (some fs) := by
  refine ⟨startsOperand_word hne hword, _, lexesBefore_word hne hword, .some ⟨?_, ?_⟩⟩
  · simpa using makes_word (w := s.toList) (by simpa using hs)
  · exact skips_single (by simp)

theorem SpellsClass.const {fs : Option (List Flat)} (h : SpellsClass code s fs) :
    SpellsClass ("const " ++ code) s fs := by
  obtain ⟨hstart, ts, hlex, hrel⟩ := h
  have hconst : LexesBefore StopsWord ['c', 'o', 'n', 's', 't'] (some [.word _]) :=
    lexesBefore_word (by simp) (all_eq_true.mp (by decide))
  have hblank : LexesBefore (fun _ => True) [' '] (some [.blank]) := lexesBefore_mark rfl rfl
  have hall := hconst.append (hblank.append hlex fun _ _ => trivial)
    fun rest _ => (stops_cons (by decide) _).stopsWord
  refine spellsClass_of_lexes ⟨'c', by simp, .inl (by decide)⟩ hall (fun _ h => h) ?_ (by simp)
  cases hrel with
  | none => exact .none
  | some h => exact .some ⟨h.1.const, .append (fun _ _ _ _ => rfl) h.2⟩

/-- A class may be named by the type of an instance. -/
theorem SpellsClass.decltype (hne : s.toList ≠ [])
    (hword : ∀ c ∈ s.toList, isWordChar c = true) (hs : s ∉ ["const", "decltype"])
    (hargs : List.Forall₂ Spells codes fs) (b : Bracket) : SpellsClass
      ("decltype(" ++ s ++ (b.openText ++ (separatorText true).intercalate codes ++ b.closeText)
        ++ ")")
      s (fs.mapM fun f => f) := by
  obtain ⟨tss, hlexes, hrels⟩ := lexesBefore_bracketed true b hargs
  have hdecltype : LexesBefore StopsWord ['d', 'e', 'c', 'l', 't', 'y', 'p', 'e']
      (some [.word _]) :=
    lexesBefore_word (by simp) (all_eq_true.mp (by decide))
  have hclass := (lexesBefore_word hne hword).append
    (hlexes.append lexesBefore_closing fun _ _ => trivial) fun rest _ => by
      rw [append_assoc]
      exact (stops_openText b _ _ _).stopsWord
  have hall := hdecltype.append (lexesBefore_opening.append hclass fun _ _ => trivial)
    fun rest _ => (stops_cons (by decide) _).stopsWord
  refine spellsClass_of_lexes ⟨'d', by simp, .inl (by decide)⟩ hall (fun _ _ => trivial) ?_ (by simp)
  generalize (fs.mapM fun f => f) = gs at hrels ⊢
  cases hrels with
  | none => exact .none
  | some htss =>
    have hskips := ((skips_separator true).intercalate htss.2).bracketed b
    have hs' : String.ofList s.toList ∉ ["const", "decltype"] := by simpa using hs
    have hmakes := makes_decltype hs' hskips
    rw [String.ofList_toList] at hmakes
    have hword : Skips [.word s.toList] := skips_single (by simp)
    exact .some ⟨hmakes, .append (fun _ _ _ _ => rfl) ((hword.append hskips).bracketed .round)⟩

/-- A function template that makes instances, in front of their arguments. -/
theorem SpellsClass.maker {fs : Option (List Flat)} (h : SpellsClass code s fs)
    {maker : String} (hmaker : maker ∈ makers) :
    Spells (maker ++ "<" ++ code ++ ">") (fs.map fun _ => .single (.name (canonical s))) := by
  obtain ⟨hstart, ts, hlex, hrel⟩ := h
  have hwords : ∀ m ∈ makers, m.toList ≠ [] ∧ m.toList.all isWordChar = true := by decide
  obtain ⟨hne, hword⟩ := hwords maker hmaker
  rw [all_eq_true] at hword
  have hclose := (lexesBefore_op (o := ['>']) (by decide)).mono fun _ h => Stops.endsOperator h
  have hright := hlex.append hclose fun rest _ c hc => by
    obtain rfl : '>' = c := by simpa using hc
    decide
  have hall := (lexesBefore_template hne hword).append hright fun rest _ =>
    endsOperator_of_startsOperand (by simpa using hstart.append _)
  refine ⟨by simpa using (startsOperand_word hne hword).append _,
    contributes_of_lexes hall (fun _ h => h) ?_ (by simp)⟩
  cases hrel with
  | none => exact .none
  | some h =>
    refine .some ⟨?_, .append (fun _ _ _ _ => rfl) (h.2.append fun _ _ _ _ => rfl)⟩
    have hmaker' : String.ofList maker.toList ∈ makers := by simpa using hmaker
    simpa using h.1.reads hmaker'

/-- The pointer to a class spoils every expression: the brackets in it do not match. -/
theorem spells_pointer {outer pointer rest : String} (houter : outer.toList ≠ [])
    (houter' : ∀ c ∈ outer.toList, isWordChar c = true) (hpointer : pointer.toList ≠ [])
    (hpointer' : ∀ c ∈ pointer.toList, isWordChar c = true) (hrest : StartsOperand rest.toList) :
    Spells (outer ++ "<" ++ pointer ++ "<<" ++ rest) none := by
  refine ⟨by simpa using (startsOperand_word houter houter').append _, none, fun after _ => ?_, .none⟩
  have hspoiled := lexesBefore_spoiled hpointer hpointer' (rest.toList ++ after)
    (endsOperator_of_startsOperand (hrest.append after))
  have htemplate := lexesBefore_template houter houter'
    (pointer.toList ++ ['<', '<'] ++ (rest.toList ++ after))
    (endsOperator_of_startsOperand (by simpa using (startsOperand_word hpointer hpointer').append _))
  rw [hspoiled] at htemplate
  simpa using htemplate

end Cppward.Target
