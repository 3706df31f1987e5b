import Cppward.Indented.Statement
import Cppward.Text.Lines

namespace Cppward.Indented

open List

/-!
# Which statements the bracketed form keeps

A program in indented blocks is written again with parentheses around its blocks.  This file says
what the written text says, line by line, and compares it with the program: a simple statement is
kept unless it stands behind an `if` that begins an alternative, or in the alternative of a loop.

* `simplesOf` — the simple statements of a program, each with the branch that it belongs to.
* `Mark`, `write` — lines of the bracketed form, and their text.  `Mark.parse` finds the lines in a
  text again (`parse_write`).
* `said` — the simple statements that lines say, and under which branch, by the brackets and the
  words `elif` and `else` alone.
* `Statement.lines` — the lines of a program; its text is that of `render` (`render_eq_write`).
* `Says` — what reading some lines finds, next to what there is to find.  Parts are put together by
  `Says.append` and `Says.group`.
* `render_keeps_iff` — every simple statement is found, in order and under its branch, exactly when
  nothing is lost.
-/

/-! ### The simple statements of a program -/

/-- Under which condition a block is run. -/
inductive Guard where
  | within (definition : String)
  | holds (test : String)
  | fails (test : String)
  | each (range : String)
  | ended (range : String)
  deriving DecidableEq, Repr

/-- A block of the compound statement that has the number `index` in the block around it. -/
structure Step where
  index : Nat
  guard : Guard
  deriving DecidableEq, Repr

/-- The blocks around a statement, innermost first. -/
abbrev Place := List Step

def heading (name params : String) : String :=
  name ++ (if Text.allBlank params.toList then "" else ", " ++ params)

mutual
/-- The simple statements in a statement that has the number `index` in its block. -/
def Statement.simples (place : Place) (index : Nat) : Statement → List (Place × String)
  | .simple text => [(place, text)]
  | .define name params _ body => simplesOf (⟨index, .within (heading name params)⟩ :: place) 0 body
  | .branch test body otherwise =>
    simplesOf (⟨index, .holds test⟩ :: place) 0 body ++
      simplesOf (⟨index, .fails test⟩ :: place) 0 otherwise
  | .loop target range body otherwise =>
    simplesOf (⟨index, .each (target ++ " in " ++ range)⟩ :: place) 0 body ++
      simplesOf (⟨index, .ended (target ++ " in " ++ range)⟩ :: place) 0 otherwise

/-- The simple statements in the statements of a block from number `index` on. -/
def simplesOf (place : Place) (index : Nat) : List Statement → List (Place × String)
  | [] => []
  | s :: ss => s.simples place index ++ simplesOf place (index + 1) ss
end

mutual
/-- There is no simple statement in the statement. -/
def Statement.isSilent : Statement → Bool
  | .simple _ => false
  | .define _ _ _ body => areSilent body
  | .branch _ body otherwise | .loop _ _ body otherwise => areSilent body && areSilent otherwise

def areSilent : List Statement → Bool
  | [] => true
  | s :: ss => s.isSilent && areSilent ss
end

mutual
/-- Nothing is lost: the alternative of a loop says nothing, and neither does what follows a branch
    that begins an alternative. -/
def Statement.isKept : Statement → Bool
  | .simple _ => true
  | .define _ _ _ body => areKept body
  | .branch _ body otherwise => areKept body && isKeptAlternative otherwise
  | .loop _ _ body otherwise => areKept body && areSilent otherwise

def areKept : List Statement → Bool
  | [] => true
  | s :: ss => s.isKept && areKept ss

def isKeptAlternative : List Statement → Bool
  | [] => true
  | .branch _ body otherwise :: rest =>
    areKept body && isKeptAlternative otherwise && areSilent rest
  | s :: ss => s.isKept && areKept ss
end

/-! ### Lines of the bracketed form -/

inductive Opening where
  | definition
  | branch
  | loop
  deriving DecidableEq, Repr

def Opening.word : Opening → String
  | .definition => "def ("
  | .branch => "if ("
  | .loop => "for ("

def Opening.guard : Opening → String → Guard
  | .definition => .within
  | .branch => .holds
  | .loop => .each

/-- A line of the bracketed form. -/
inductive Mark where
  | simple (text : String)
  | opens (opening : Opening) (head : String)
  | elif (test : String)
  | otherwise
  | closes (tail : String)
  deriving DecidableEq, Repr

namespace Mark

/-- A line without its margin. -/
def text : Mark → String
  | .simple text => text
  | .opens opening head => opening.word ++ head ++ ":"
  | .elif test => "elif " ++ test ++ ":"
  | .otherwise => "else:"
  | .closes tail => ")" ++ tail

/-- The depth of a line in a block of the given depth. -/
def depthIn (depth : Nat) : Mark → Nat
  | .simple _ | .opens .. => depth
  | _ => depth - 1

/-- The depth of the block behind a line. -/
def depthAfter (depth : Nat) : Mark → Nat
  | .opens .. => depth + 1
  | .closes _ => depth - 1
  | _ => depth

end Mark

/-- The text of lines in a block of the given depth. -/
def write (depth : Nat) : List Mark → String
  | [] => ""
  | l :: ls => margin (l.depthIn depth) ++ l.text ++ "\n" ++ write (l.depthAfter depth) ls

/-- A block, and the number of the next statement in it. -/
structure Position where
  place : Place := []
  index : Nat := 0
  deriving DecidableEq, Repr

/-- The simple statements in lines from a position on, where `outer` holds the positions behind the
    brackets that are open.  There is no answer if brackets do not match, or an alternative belongs to
    nothing. -/
def saidFrom (p : Position) (outer : List Position) : List Mark → Option (List (Place × String))
  | [] => if outer.isEmpty then some [] else none
  | .simple text :: ls =>
    (saidFrom { p with index := p.index + 1 } outer ls).map ((p.place, text) :: ·)
  | .opens opening head :: ls =>
    saidFrom ⟨⟨p.index, opening.guard head⟩ :: p.place, 0⟩ ({ p with index := p.index + 1 } :: outer) ls
  | .elif test :: ls =>
    match p.place with
    | ⟨i, .holds first⟩ :: place => saidFrom ⟨⟨0, .holds test⟩ :: ⟨i, .fails first⟩ :: place, 0⟩ outer ls
    | _ => none
  | .otherwise :: ls =>
    match p.place with
    | ⟨i, .holds test⟩ :: place => saidFrom ⟨⟨i, .fails test⟩ :: place, 0⟩ outer ls
    | ⟨i, .each range⟩ :: place => saidFrom ⟨⟨i, .ended range⟩ :: place, 0⟩ outer ls
    | _ => none
  | .closes _ :: ls =>
    match outer with
    | behind :: outer => saidFrom behind outer ls
    | [] => none

/-- The simple statements that lines say, each with its branch. -/
def said (ls : List Mark) : Option (List (Place × String)) := saidFrom {} [] ls

/-! ### The lines of a program -/

mutual
def Statement.lines : Statement → List Mark
  | .simple text => [.simple text]
  | .define name params returns body =>
    .opens .definition (heading name params) ::
      (linesOf body ++ [.closes ((returns.map (" : " ++ ·)).getD "")])
  | .branch test body otherwise =>
    .opens .branch test :: (linesOf body ++ alternativeLines otherwise ++ [.closes ""])
  | .loop target range body _ =>
    .opens .loop (target ++ " in " ++ range) :: (linesOf body ++ [.closes ""])

def linesOf : List Statement → List Mark
  | [] => []
  | s :: ss => s.lines ++ linesOf ss

/-- The lines for what is done when no test before holds. -/
def alternativeLines : List Statement → List Mark
  | [] => []
  | .branch test body otherwise :: _ => .elif test :: (linesOf body ++ alternativeLines otherwise)
  | s :: ss => .otherwise :: (s.lines ++ linesOf ss)
end

theorem write_nil (depth : Nat) : write depth [] = "" := rfl

theorem write_otherwise {depth : Nat} {s : Statement} {ss : List Statement} {ls : List Mark}
    (hlines : alternativeLines (s :: ss) = .otherwise :: (s.lines ++ linesOf ss))
    (hrender : renderAlternative depth (s :: ss) = margin depth ++ "else:\n" ++ margin (depth + 1) ++
      s.render (depth + 1) ++ "\n" ++ renderBlock (depth + 1) ss)
    (hs : write (depth + 1) (s.lines ++ (linesOf ss ++ ls)) = margin (depth + 1) ++
      s.render (depth + 1) ++ "\n" ++ write (depth + 1) (linesOf ss ++ ls))
    (hss : write (depth + 1) (linesOf ss ++ ls) =
      renderBlock (depth + 1) ss ++ write (depth + 1) ls) :
    write (depth + 1) (alternativeLines (s :: ss) ++ ls) =
      renderAlternative depth (s :: ss) ++ write (depth + 1) ls := by
  rw [hlines, hrender, cons_append, write, append_assoc]
  show _ ++ write (depth + 1) _ = _
  rw [hs, hss]
  simp [Mark.depthIn, Mark.text, String.append_assoc]

mutual
theorem write_lines (depth : Nat) (ls : List Mark) : ∀ s : Statement,
    write depth (s.lines ++ ls) = margin depth ++ s.render depth ++ "\n" ++ write depth ls
  | .simple text => rfl
  | .define name params returns body => by
    rw [Statement.lines, Statement.render, cons_append, write, append_assoc]
    show _ ++ write (depth + 1) _ = _
    rw [write_linesOf (depth + 1) _ body]
    simp [write, Mark.depthIn, Mark.depthAfter, Mark.text, Opening.word, definitionHead, heading,
      String.append_assoc]
  | .branch test body otherwise => by
    rw [Statement.lines, Statement.render, cons_append, write, append_assoc,
      append_assoc]
    show _ ++ write (depth + 1) _ = _
    rw [write_linesOf (depth + 1) _ body, write_alternativeLines depth _ otherwise]
    simp [write, Mark.depthIn, Mark.depthAfter, Mark.text, Opening.word, String.append_assoc]
  | .loop target range body otherwise => by
    rw [Statement.lines, Statement.render, cons_append, write, append_assoc]
    show _ ++ write (depth + 1) _ = _
    rw [write_linesOf (depth + 1) _ body]
    simp [write, Mark.depthIn, Mark.depthAfter, Mark.text, Opening.word, String.append_assoc]

/-- Statements are written line by line. -/
theorem write_linesOf (depth : Nat) (ls : List Mark) : ∀ ss : List Statement,
    write depth (linesOf ss ++ ls) = renderBlock depth ss ++ write depth ls
  | [] => by simp [linesOf, renderBlock]
  | s :: ss => by
    rw [linesOf, renderBlock, append_assoc, write_lines depth _ s, write_linesOf depth ls ss]
    simp [String.append_assoc]

theorem write_alternativeLines (depth : Nat) (ls : List Mark) : ∀ ss : List Statement,
    write (depth + 1) (alternativeLines ss ++ ls) =
      renderAlternative depth ss ++ write (depth + 1) ls
  | [] => by simp [alternativeLines, renderAlternative]
  | .branch test body otherwise :: rest => by
    rw [alternativeLines, renderAlternative, cons_append, write, append_assoc]
    show _ ++ write (depth + 1) _ = _
    rw [write_linesOf (depth + 1) _ body, write_alternativeLines depth ls otherwise]
    simp [Mark.depthIn, Mark.text, String.append_assoc]
  | .simple text :: ss =>
    write_otherwise rfl rfl (write_lines (depth + 1) _ (.simple text)) (write_linesOf (depth + 1) ls ss)
  | .define name params returns body :: ss =>
    write_otherwise rfl rfl (write_lines (depth + 1) _ (.define name params returns body))
      (write_linesOf (depth + 1) ls ss)
  | .loop target range body otherwise :: ss =>
    write_otherwise rfl rfl (write_lines (depth + 1) _ (.loop target range body otherwise))
      (write_linesOf (depth + 1) ls ss)
end

theorem render_eq_write (program : List Statement) : render program = write 0 (linesOf program) := by
  have h := write_linesOf 0 [] program
  rw [append_nil, write_nil] at h
  simpa [render] using h.symm

/-! ### Finding the lines in a text -/

/-- The words that begin a line which ends in a colon, and the line that the rest makes. -/
def Mark.openings : List (String × (String → Mark)) :=
  [("def (", .opens .definition), ("if (", .opens .branch), ("for (", .opens .loop), ("elif ", .elif)]

/-- A line of text: brackets are opened by lines that end in a colon, and closed by lines that begin
    with a parenthesis. -/
def Mark.ofText (text : List Char) : Mark :=
  let cs := text.dropWhile (· == ' ')
  if cs.head? == some ')' then .closes (String.ofList cs.tail)
  else if cs.getLast? == some ':' then
    match Mark.openings.find? fun o => o.1.toList.isPrefixOf cs with
    | some (word, make) => make (String.ofList (cs.dropLast.drop word.length))
    | none => .otherwise
  else .simple (String.ofList cs)

def Mark.parse (text : String) : List Mark := (Text.lines text.toList).map Mark.ofText

/-- The text of a simple statement is not mistaken for something else. -/
def isOrdinary (text : String) : Bool :=
  text.toList.head? != some ' ' && text.toList.head? != some ')' && text.toList.getLast? != some ':'

/-- The line has no line break in it, and is ordinary if it is a simple statement. -/
def Mark.isPlain (l : Mark) : Bool :=
  !l.text.toList.contains '\n' &&
    match l with
    | .simple text => isOrdinary text
    | _ => true

theorem lines_line {line : List Char} (h : '\n' ∉ line) (rest : List Char) :
    Text.lines (line ++ '\n' :: rest) = line :: Text.lines rest := by
  induction line with
  | nil => simp [Text.lines]
  | cons c line ih =>
    have hc : c ≠ '\n' := fun hc => h (hc ▸ mem_cons_self)
    have hline : '\n' ∉ line := fun hmem => h (mem_cons_of_mem c hmem)
    rw [cons_append, Text.lines, ih hline]
    simp [hc]

theorem Mark.ofText_margin {text : List Char} (h : text.head? ≠ some ' ') (depth : Nat) :
    (List.replicate depth ' ' ++ text).dropWhile (· == ' ') = text := by
  rw [dropWhile_append_of_pos (by simp)]
  cases text with
  | nil => rfl
  | cons c text => simp_all

/-- The words are told apart by their first letters. -/
theorem Mark.ofText_opening {word : String} {make : String → Mark} (h : (word, make) ∈ Mark.openings)
    (depth : Nat) (head : String) :
    Mark.ofText (List.replicate depth ' ' ++ (word.toList ++ head.toList ++ [':'])) = make head := by
  have hdrop : String.ofList ((word.toList ++ head.toList ++ [':']).dropLast.drop word.length) =
      head := by
    rw [dropLast_concat, ← String.length_toList, drop_left, String.ofList_toList]
  have hfound : Mark.openings.find?
      (fun o => o.1.toList.isPrefixOf (word.toList ++ head.toList ++ [':'])) = some (word, make) ∧
        (word.toList ++ head.toList ++ [':']).head? ≠ some ' ' ∧
        (word.toList ++ head.toList ++ [':']).head? ≠ some ')' := by
    simp only [Mark.openings, mem_cons, not_mem_nil, or_false, Prod.mk.injEq] at h
    rcases h with ⟨rfl, rfl⟩ | ⟨rfl, rfl⟩ | ⟨rfl, rfl⟩ | ⟨rfl, rfl⟩ <;>
      exact ⟨rfl, by simp, by simp⟩
  obtain ⟨hfind, hspace, hclose⟩ := hfound
  unfold Mark.ofText
  rw [Mark.ofText_margin hspace]
  dsimp only
  rw [if_neg (by simpa using hclose), if_pos (by simp), hfind]
  exact congrArg make hdrop

/-- A plain line is found again behind its margin. -/
theorem Mark.ofText_text {l : Mark} (h : l.isPlain = true) (depth : Nat) :
    Mark.ofText (List.replicate depth ' ' ++ l.text.toList) = l := by
  cases l with
  | simple text =>
    simp only [Mark.isPlain, isOrdinary, Bool.and_eq_true, bne_iff_ne, and_assoc] at h
    obtain ⟨-, hspace, hclose, hcolon⟩ := h
    unfold Mark.ofText
    rw [Mark.text, Mark.ofText_margin hspace]
    simp [hclose, hcolon]
  | opens opening head =>
    have htext : (Mark.opens opening head).text.toList =
        opening.word.toList ++ head.toList ++ [':'] := by simp [Mark.text]
    rw [htext]
    apply Mark.ofText_opening
    cases opening <;> simp [Mark.openings, Opening.word]
  | elif test =>
    have htext : (Mark.elif test).text.toList = "elif ".toList ++ test.toList ++ [':'] := by
      simp [Mark.text]
    rw [htext]
    apply Mark.ofText_opening
    simp [Mark.openings]
  | otherwise =>
    unfold Mark.ofText
    rw [Mark.ofText_margin (by simp [Mark.text])]
    simp [Mark.text, Mark.openings]
  | closes tail =>
    unfold Mark.ofText
    rw [Mark.ofText_margin (by simp [Mark.text])]
    simp [Mark.text]

theorem Mark.parse_write {ls : List Mark} (h : ∀ l ∈ ls, l.isPlain = true) (depth : Nat) :
    Mark.parse (write depth ls) = ls := by
  unfold Mark.parse
  induction ls generalizing depth with
  | nil => rfl
  | cons l ls ih =>
    have hl := h l mem_cons_self
    have hrest := ih (fun l' hl' => h l' (mem_cons_of_mem l hl')) (l.depthAfter depth)
    have htext : (write depth (l :: ls)).toList =
        (List.replicate (4 * l.depthIn depth) ' ' ++ l.text.toList) ++
          '\n' :: (write (l.depthAfter depth) ls).toList := by
      simp [write, margin]
    have hline : '\n' ∉ List.replicate (4 * l.depthIn depth) ' ' ++ l.text.toList := by
      have hbreak : '\n' ∉ l.text.toList := by
        have hplain := (Bool.and_eq_true_iff.mp hl).1
        simpa using hplain
      simp [hbreak]
    rw [htext, lines_line hline, map_cons, hrest, Mark.ofText_text hl]

/-! ### What the lines of a program say -/

variable {p q r : Position} {ls ls' : List Mark} {all all' : List (Place × String)}
  {kept kept' : Bool}

/-- Reading the lines `ls` leads from the position `p` to `q` and finds a part of the statements
    `all`, all of them exactly if `kept` is true. -/
def Says (p : Position) (ls : List Mark) (all : List (Place × String)) (kept : Bool)
    (q : Position) : Prop :=
  ∃ found, (∀ outer rest, saidFrom p outer (ls ++ rest) = (saidFrom q outer rest).map (found ++ ·)) ∧
    found.Sublist all ∧ (found = all ↔ kept = true)

theorem Says.nil (p : Position) : Says p [] [] true p :=
  ⟨[], fun outer rest => by simp, List.Sublist.refl _, by simp⟩

/-- Lines that follow each other: both parts are found whole, or the whole is not. -/
theorem Says.append (h : Says p ls all kept q) (h' : Says q ls' all' kept' r) :
    Says p (ls ++ ls') (all ++ all') (kept && kept') r := by
  obtain ⟨found, hread, hsub, hall⟩ := h
  obtain ⟨found', hread', hsub', hall'⟩ := h'
  refine ⟨found ++ found', ?_, hsub.append hsub', ?_⟩
  · intro outer rest
    rw [append_assoc, hread, hread', Option.map_map]
    simp [Function.comp_def]
  · rw [Bool.and_eq_true, ← hall, ← hall']
    constructor
    · -- neither part can make up for what the other one lacks
      intro heq
      have hlength := congrArg List.length heq
      rw [length_append, length_append] at hlength
      have hle := hsub.length_le
      have hle' := hsub'.length_le
      exact ⟨hsub.eq_of_length (by omega), hsub'.eq_of_length (by omega)⟩
    · rintro ⟨rfl, rfl⟩
      rfl

/-- Statements that are left out are lost unless they say nothing. -/
theorem Says.drop (h : Says p ls all kept q) (hmore : all' = [] ↔ kept' = true) :
    Says p ls (all ++ all') (kept && kept') q := by
  obtain ⟨found, hread, hsub, hall⟩ := h
  refine ⟨found, hread, hsub.trans (sublist_append_left ..), ?_⟩
  rw [Bool.and_eq_true, ← hall, ← hmore]
  constructor
  · intro heq
    have hlength := congrArg List.length heq
    rw [length_append] at hlength
    have hle := hsub.length_le
    exact ⟨hsub.eq_of_length (by omega), eq_nil_of_length_eq_zero (by omega)⟩
  · rintro ⟨rfl, rfl⟩
    rw [append_nil]

/-- A bracket with what is said in it is one statement. -/
theorem Says.group {opening : Opening} {head tail : String}
    (h : Says ⟨⟨p.index, opening.guard head⟩ :: p.place, 0⟩ ls all kept q) :
    Says p (.opens opening head :: (ls ++ [.closes tail])) all kept ⟨p.place, p.index + 1⟩ := by
  obtain ⟨found, hread, hsub, hall⟩ := h
  refine ⟨found, fun outer rest => ?_, hsub, hall⟩
  rw [cons_append, append_assoc, saidFrom, hread]
  rfl

mutual
theorem simples_eq_nil_iff (place : Place) (index : Nat) : ∀ s : Statement,
    s.simples place index = [] ↔ s.isSilent = true
  | .simple text => by simp [Statement.simples, Statement.isSilent]
  | .define name params returns body => by
    rw [Statement.simples, Statement.isSilent, simplesOf_eq_nil_iff _ 0 body]
  | .branch test body otherwise => by
    rw [Statement.simples, Statement.isSilent, append_eq_nil_iff, Bool.and_eq_true,
      simplesOf_eq_nil_iff _ 0 body, simplesOf_eq_nil_iff _ 0 otherwise]
  | .loop target range body otherwise => by
    rw [Statement.simples, Statement.isSilent, append_eq_nil_iff, Bool.and_eq_true,
      simplesOf_eq_nil_iff _ 0 body, simplesOf_eq_nil_iff _ 0 otherwise]

theorem simplesOf_eq_nil_iff (place : Place) (index : Nat) : ∀ ss : List Statement,
    simplesOf place index ss = [] ↔ areSilent ss = true
  | [] => by simp [simplesOf, areSilent]
  | s :: ss => by
    rw [simplesOf, areSilent, append_eq_nil_iff, Bool.and_eq_true,
      simples_eq_nil_iff place index s, simplesOf_eq_nil_iff place (index + 1) ss]
end

/-- A line that says nothing leads to another place.  Behind `else` the test has failed; behind `elif`
    the second test holds, as in a branch that is the first statement of the alternative. -/
theorem Says.cons {l : Mark} {p' : Position} (h : Says p' ls all kept q)
    (hl : ∀ outer rest, saidFrom p outer (l :: rest) = saidFrom p' outer rest) :
    Says p (l :: ls) all kept q := by
  obtain ⟨found, hread, hsub, hall⟩ := h
  refine ⟨found, fun outer rest => ?_, hsub, hall⟩
  rw [cons_append, hl, hread]

-- The three inductions go by the structure of statements.
mutual
theorem says_lines (place : Place) (index : Nat) : ∀ s : Statement,
    Says ⟨place, index⟩ s.lines (s.simples place index) s.isKept ⟨place, index + 1⟩
  | .simple text => by
    refine ⟨[(place, text)], fun outer rest => ?_, List.Sublist.refl _, ?_⟩
    · simp [Statement.lines, saidFrom]
    · simp [Statement.simples, Statement.isKept]
  | .define name params returns body => by
    rw [Statement.lines, Statement.simples, Statement.isKept]
    obtain ⟨next, hbody⟩ := says_linesOf (⟨index, .within (heading name params)⟩ :: place) 0 body
    exact hbody.group
  | .branch test body otherwise => by
    rw [Statement.lines, Statement.simples, Statement.isKept]
    obtain ⟨next, hbody⟩ := says_linesOf (⟨index, .holds test⟩ :: place) 0 body
    obtain ⟨q, hotherwise⟩ := says_alternativeLines place index next test otherwise
    exact (hbody.append hotherwise).group
  | .loop target range body otherwise => by
    rw [Statement.lines, Statement.simples, Statement.isKept]
    obtain ⟨next, hbody⟩ :=
      says_linesOf (⟨index, .each (target ++ " in " ++ range)⟩ :: place) 0 body
    exact (hbody.drop (simplesOf_eq_nil_iff _ 0 otherwise)).group

theorem says_linesOf (place : Place) (index : Nat) : ∀ ss : List Statement,
    ∃ next, Says ⟨place, index⟩ (linesOf ss) (simplesOf place index ss) (areKept ss) ⟨place, next⟩
  | [] => ⟨index, .nil _⟩
  | s :: ss => by
    obtain ⟨next, hss⟩ := says_linesOf place (index + 1) ss
    exact ⟨next, (says_lines place index s).append hss⟩

/-- The lines of an alternative say what it does where the test fails. -/
theorem says_alternativeLines (place : Place) (i index : Nat) (test : String) :
    ∀ ss : List Statement, ∃ q, Says ⟨⟨i, .holds test⟩ :: place, index⟩ (alternativeLines ss)
      (simplesOf (⟨i, .fails test⟩ :: place) 0 ss) (isKeptAlternative ss) q
  | [] => ⟨_, .nil _⟩
  | .branch test' body otherwise :: rest => by
    -- what follows the branch is left out
    rw [alternativeLines, simplesOf, Statement.simples, isKeptAlternative]
    obtain ⟨next, hbody⟩ := says_linesOf (⟨0, .holds test'⟩ :: ⟨i, .fails test⟩ :: place) 0 body
    obtain ⟨q, hotherwise⟩ :=
      says_alternativeLines (⟨i, .fails test⟩ :: place) 0 next test' otherwise
    refine ⟨q, Says.drop ((hbody.append hotherwise).cons fun _ _ => rfl) ?_⟩
    exact simplesOf_eq_nil_iff _ 1 rest
  | .simple text :: ss => by
    obtain ⟨next, hss⟩ := says_linesOf (⟨i, .fails test⟩ :: place) 1 ss
    exact ⟨_, ((says_lines _ 0 (.simple text)).append hss).cons fun _ _ => rfl⟩
  | .define name params returns body :: ss => by
    obtain ⟨next, hss⟩ := says_linesOf (⟨i, .fails test⟩ :: place) 1 ss
    exact ⟨_, ((says_lines _ 0 (.define name params returns body)).append hss).cons fun _ _ => rfl⟩
  | .loop target range body otherwise :: ss => by
    obtain ⟨next, hss⟩ := says_linesOf (⟨i, .fails test⟩ :: place) 1 ss
    exact ⟨_, ((says_lines _ 0 (.loop target range body otherwise)).append hss).cons fun _ _ => rfl⟩
end

/-- **What the bracketed form keeps.**  The text of a program consists of lines, which can be found in
    it again if they are plain.  What these lines say is a part of the simple statements of the program,
    in order and under the branches that they belong to.  It is all of them exactly when no loop has an
    alternative that says something, and nothing is said behind a branch that begins an alternative. -/
theorem render_keeps_iff (program : List Statement) :
    render program = write 0 (linesOf program) ∧
      ((∀ l ∈ linesOf program, l.isPlain = true) → Mark.parse (render program) = linesOf program) ∧
      ∃ found, said (linesOf program) = some found ∧ found.Sublist (simplesOf [] 0 program) ∧
        (found = simplesOf [] 0 program ↔ areKept program = true) := by
  refine ⟨render_eq_write program, fun hplain => ?_, ?_⟩
  · rw [render_eq_write]
    exact Mark.parse_write hplain 0
  · obtain ⟨next, found, hread, hsub, hall⟩ := says_linesOf [] 0 program
    have hsaid := hread [] []
    rw [List.append_nil] at hsaid
    exact ⟨found, by simpa [said, saidFrom] using hsaid, hsub, hall⟩

/-- A definition with a loop around a chain of branches, whose last alternative goes on behind a
    simple statement with a branch. -/
def wholeProgram : List Statement :=
  [.define "f" "xs" (some "int") [
    .loop "x" "xs" [
      .branch "x == 0" [.simple "y = 1"] [
        .branch "x == 1" [.simple "y = 2"] [
          .simple "y = 3", .branch "y" [.simple "y = 4"] []]]] [],
    .simple "return y"]]

theorem render_keeps_wholeProgram :
    Mark.parse (render wholeProgram) = linesOf wholeProgram ∧
      said (linesOf wholeProgram) = some (simplesOf [] 0 wholeProgram) := by
  obtain ⟨-, hparse, found, hsaid, -, hall⟩ := render_keeps_iff wholeProgram
  refine ⟨hparse (by decide), ?_⟩
  rw [hsaid, hall.mpr (by decide)]

/-- An alternative that begins with a branch and goes on, and a loop with an alternative. -/
def lossyProgram : List Statement :=
  [.branch "x" [.simple "a = 1"] [.branch "y" [.simple "b = 2"] [], .simple "c = 3"],
    .loop "i" "xs" [.simple "d = 4"] [.simple "e = 5"]]

/-- In the text of this program `c = 3` and `e = 5` are not said. -/
theorem render_loses_lossyProgram :
    said (Mark.parse (render lossyProgram)) = some [
      ([⟨0, .holds "x"⟩], "a = 1"), ([⟨0, .holds "y"⟩, ⟨0, .fails "x"⟩], "b = 2"),
      ([⟨1, .each "i in xs"⟩], "d = 4")] ∧
    simplesOf [] 0 lossyProgram = [
      ([⟨0, .holds "x"⟩], "a = 1"), ([⟨0, .holds "y"⟩, ⟨0, .fails "x"⟩], "b = 2"),
      ([⟨0, .fails "x"⟩], "c = 3"), ([⟨1, .each "i in xs"⟩], "d = 4"),
      ([⟨1, .ended "i in xs"⟩], "e = 5")] := by
  decide +kernel

end Cppward.Indented
