import Cppward.Proofs.Grammar.Forward
import Cppward.Proofs.Source.Grammatical
import Cppward.Proofs.Source.Hidden

namespace Cppward

open Text List Node

/-!
# Constructor expressions in the grammar

The text of an outline, with its escapes hidden, is an expression of the language: constructors are
read as calls, lists as list literals with a type, and quoted texts as literals.

* `Source.ReadsOutline` — a reader takes an outline for its tree.  If expressions nested to some
  depth do so for the parts of an outline, those nested more deeply do so for the outline
  (`readsOutline_list`, `readsOutline_apply`).
* `Source.readsOutline_expression` — expressions take outlines for their trees.
-/

variable {loc : Nat} {x : Char} {name : String}

namespace Outline

mutual
/-- The tree of an outline, as an expression of the language; `r` gives the values of its texts. -/
def tree (r : String → String) : Outline → Node
  | .nothing => Node.ident "None"
  | .free number => Node.ident (freshName number)
  | .text t => Node.make (.str (r t) none none) none []
  | .list items _ =>
    Node.ofBinary .typed ":" (Node.make .list none (treeList r items)) (Node.ident "Node")
  | .apply name args _ => Node.ofCall (Node.ident name.val) (treeList r args)

def treeList (r : String → String) : List Outline → List Node
  | [] => []
  | f :: fs => f.tree r :: treeList r fs
end

theorem treeList_eq (r : String → String) (fs : List Outline) :
    treeList r fs = fs.map (tree r) :=
  eq_map rfl (fun _ _ => rfl) fs

end Outline

namespace Source

open Grammar

/-! ### Nodes and trees -/

/-- The node is the tree, once its marks are dropped.  Offsets are left aside. -/
def Denotes (n tree : Node) : Prop := (unwrap false n).alike (· == ·) tree = true

theorem denotes_make {kind : Kind} {func func' : Option Node} {args args' : List Node} {loc' : Nat}
    (hkind : kind ≠ .wrapper) (hfunc : List.Forall₂ Denotes func.toList func'.toList)
    (hargs : List.Forall₂ Denotes args args') :
    Denotes (make kind func args loc) (make kind func' args' loc') := by
  have hfunc' : (func.map (unwrap false)).toList = func.toList.map (unwrap false) := by
    cases func <;> rfl
  rw [Denotes, unwrap_of_ne_wrapper (n := make kind func args loc) false hkind, alike_iff,
    alikeList_iff, alikeList_iff]
  refine ⟨beq_self_eq_true kind, ?_, forall₂_map_left_iff.mpr hargs⟩
  change List.Forall₂ _ (func.map (unwrap false)).toList func'.toList
  rw [hfunc']
  exact forall₂_map_left_iff.mpr hfunc

theorem denotes_ident (name : String) (loc : Nat) :
    Denotes (ident name loc) (ident name) :=
  denotes_make nofun .nil .nil

/-- A mark around a node that is none is dropped. -/
theorem Denotes.wrapper {n tree : Node} (h : Denotes n tree)
    (hkind : n.kind ≠ .wrapper) (loc : Nat) :
    Denotes (make .wrapper none [n] loc) tree := by
  change (unwrap true n).alike (· == ·) tree = true
  rwa [unwrap_of_ne_wrapper true hkind, ← unwrap_of_ne_wrapper false hkind]

/-- What an operand is read as: a node that is no mark. -/
def DenotesOperand (n tree : Node) : Prop := Denotes n tree ∧ n.kind ≠ .wrapper

/-! ### Where outlines start and end -/

variable {text rest : List Char} {self : Reader Node} {f : Outline} {fs : List Outline}
  {comma : Bool}

/-- The text of an outline, as the grammar sees it. -/
abbrev hidden (f : Outline) : List Char := f.print Style.program hiddenQuote

/-- The text of some items, as the grammar sees it. -/
abbrev hiddenItems (comma : Bool) (fs : List Outline) : List Char :=
  Outline.printItems Style.program hiddenQuote comma fs

/-- The comma behind an item, when others may follow. -/
def separator (comma : Bool) (fs : List Outline) : List Char :=
  if comma || !fs.isEmpty then ", ".toList else []

theorem hiddenItems_cons (comma : Bool) (f : Outline) (fs : List Outline) :
    hiddenItems comma (f :: fs) = hidden f ++ (separator comma fs ++ hiddenItems comma fs) := rfl

theorem hidden_apply (name : ClassName) (args : List Outline) (loc : Nat) :
    hidden (.apply name args loc) =
      name.val.toList ++ '(' :: (hiddenItems true args ++ [')']) := rfl

theorem hidden_list (items : List Outline) (comma : Bool) :
    hidden (.list items comma) = '[' :: (hiddenItems comma items ++ "]: Node".toList) := rfl

/-- The characters that outlines start with. -/
def isStart (x : Char) : Bool := x == '"' || x == '[' || x == 'c' || x.isUpper

/-- What holds of quotes, square brackets, the first letter of fresh names and capital letters holds
    of the start of an outline. -/
theorem of_isStart (p : Char → Bool) (hquote : p '"' = true) (hopen : p '[' = true)
    (hfresh : p 'c' = true) (hupper : ∀ n < 26, p (Char.ofNat (65 + n)) = true) (h : isStart x = true) :
    p x = true := by
  simp only [isStart, Bool.or_eq_true, beq_iff_eq] at h
  rcases h with ((rfl | rfl) | rfl) | h
  · exact hquote
  · exact hopen
  · exact hfresh
  · exact of_isUpper p hupper h

theorem exists_hidden_eq_cons (f : Outline) : ∃ x cs, hidden f = x :: cs ∧ isStart x = true := by
  cases f with
  | nothing => exact ⟨'N', _, rfl, by decide⟩
  | free number =>
    obtain ⟨cs, hname, -⟩ := exists_freshName_eq_cons number
    exact ⟨'c', cs, hname, by decide⟩
  | text t => exact ⟨'"', _, rfl, by decide⟩
  | list items comma => exact ⟨'[', _, rfl, by decide⟩
  | apply name args loc =>
    obtain ⟨x, cs, hname, hx, -⟩ := name.exists_cons
    refine ⟨x, _, by rw [hidden_apply, hname, cons_append], ?_⟩
    rw [isStart, hx, Bool.or_true]

theorem dropWhile_hidden (f : Outline) (rest : List Char) :
    (hidden f ++ rest).dropWhile isGap = hidden f ++ rest := by
  obtain ⟨x, cs, hf, hx⟩ := exists_hidden_eq_cons f
  have hgap := of_isStart (fun x => !isGap x) (by decide) (by decide) (by decide) (by decide) hx
  rw [hf, cons_append, dropWhile_cons_of_neg (by simpa using hgap)]

/-- The characters that may stand behind an outline. -/
def enders : List Char := [',', ']', ';']

/-- The text may stand behind an outline. -/
def Ends (rest : List Char) : Prop := ∃ x cs, rest = x :: cs ∧ x ∈ enders

theorem Ends.lead (h : Ends rest) : ∃ x ∈ enders, lead rest = some x ∧ rest.head? = some x := by
  obtain ⟨x, cs, rfl, hx⟩ := h
  refine ⟨x, hx, ?_, rfl⟩
  have hgap := (by decide : ∀ x ∈ enders, isGap x = false) x hx
  rw [Grammar.lead, dropWhile_cons_of_neg (by rw [hgap]; exact Bool.false_ne_true),
    head?_cons]

theorem ends_separator (comma : Bool) (fs : List Outline) (rest : List Char) :
    Ends (separator comma fs ++ (hiddenItems comma fs ++ ']' :: rest)) := by
  rw [separator]
  split
  · exact ⟨',', _, rfl, by decide⟩
  · next h =>
    rw [Bool.or_eq_true, not_or, Bool.not_eq_true', Bool.not_eq_false, List.isEmpty_iff] at h
    rw [h.2]
    exact ⟨']', _, rfl, by decide⟩

/-- The text is at the end of arguments or items. -/
def Closing (text : List Char) : Prop := ∀ x ∈ lead text, x ∈ [')', ']']

theorem closing_of_lead (h : lead text = some x) (hx : x ∈ [')', ']']) : Closing text := by
  rw [Closing, h]
  rintro _ ⟨⟩
  exact hx

def allOperators : List Operator := operatorsOf (chainLevels ++ expressionLevels)

theorem bars_of_isStart (h : ∃ x ∈ lead text, isStart x = true) : Bars allOperators text := by
  obtain ⟨x, hlead, hx⟩ := h
  refine bars_of_lead ?_
  have hstart := of_isStart (fun x => !allOperators.any (Operator.mayStart (some x)))
    (by decide) (by decide) (by decide) (by decide) hx
  rw [Option.mem_def.mp hlead]
  simpa using hstart

theorem Ends.bars (h : Ends rest) : Bars allOperators rest := by
  obtain ⟨x, hx, hlead, -⟩ := h.lead
  refine bars_of_lead ?_
  rw [hlead]
  exact (by decide : ∀ x ∈ enders, allOperators.any (Operator.mayStart (some x)) = false) x hx

theorem Closing.bars (h : Closing text) : Bars allOperators text := by
  refine bars_of_lead ?_
  cases hlead : lead text with
  | none => decide
  | some x =>
    have hx := h x hlead
    exact (by decide : ∀ x ∈ [')', ']'], allOperators.any (Operator.mayStart (some x)) = false) x hx

/-! ### Items and arguments -/

/-- The reader takes an outline for its tree. -/
def ReadsOutline (self : Reader Node) (f : Outline) : Prop :=
  ∀ text rest, text.dropWhile isGap = hidden f ++ rest → Ends rest →
    Reads self text (Denotes · (f.tree restored)) rest

/-- The nodes are the trees of the outlines. -/
def DenotesAll (ns : List Node) (fs : List Outline) : Prop :=
  List.Forall₂ (fun n f => Denotes n (f.tree restored)) ns fs

theorem DenotesAll.tree {ns : List Node} (h : DenotesAll ns fs) :
    List.Forall₂ Denotes ns (Outline.treeList restored fs) := by
  rw [Outline.treeList_eq]
  exact forall₂_map_right_iff.mpr h

theorem reads_trailingComma (comma : Bool) (rest : List Char) :
    ∃ mid, mid.dropWhile isGap = ']' :: rest ∧
      Reads (Reader.attempt (Reader.symbol ",")) (separator comma [] ++ ']' :: rest)
        (fun _ => True) mid := by
  cases comma with
  | true => exact ⟨' ' :: ']' :: rest, rfl, (reads_symbol rfl).attempt.mono fun _ _ => trivial⟩
  | false =>
    have hrefuses : Refuses (Reader.symbol ",") (']' :: rest) :=
      refuses_symbol_of_lead rfl (by rintro ⟨⟩)
    exact ⟨']' :: rest, rfl, hrefuses.attempt.mono fun _ _ => trivial⟩

section Items

variable (hclosing : ∀ text, Closing text → Refuses self text)
  (hself : ∀ f ∈ fs, ReadsOutline self f)

include hclosing hself

/-- Items behind commas, up to the end of the list. -/
theorem readsMany_items (rest : List Char) :
    ReadsMany (do Reader.symbol ","; self)
      (separator comma fs ++ (hiddenItems comma fs ++ ']' :: rest))
      (DenotesAll · fs) (separator comma [] ++ ']' :: rest) := by
  induction fs with
  | nil =>
    -- behind a comma at the end no item follows, and the reader goes back before it
    have hrefuses : Refuses (do Reader.symbol ","; self) (separator comma [] ++ ']' :: rest) := by
      cases comma with
      | true =>
        have hcomma : Reads (Reader.symbol ",") (',' :: ' ' :: ']' :: rest) (fun _ => True)
            (' ' :: ']' :: rest) :=
          reads_symbol rfl
        exact hcomma.bind_refuses fun _ _ => hclosing _ (closing_of_lead rfl (by decide))
      | false => exact (refuses_symbol_of_lead (x := ',') rfl (by rintro ⟨⟩)).bind
    refine hrefuses.readsMany.mono fun ns hns => ?_
    subst hns
    exact .nil
  | cons f fs ih =>
    obtain ⟨hf, hfs⟩ := forall_mem_cons.mp hself
    have hsep : separator comma (f :: fs) = [',', ' '] := by simp [separator]
    have hends := ends_separator comma fs rest
    rw [hsep, hiddenItems_cons, append_assoc, append_assoc]
    have hitem : Reads (do Reader.symbol ","; self)
        ([',', ' '] ++ (hidden f ++ (separator comma fs ++ (hiddenItems comma fs ++ ']' :: rest))))
        (Denotes · (f.tree restored))
        (separator comma fs ++ (hiddenItems comma fs ++ ']' :: rest)) :=
      (reads_symbol rfl).bind fun _ _ => hf (' ' :: _) _ (dropWhile_hidden f _) hends
    refine (hitem.readsMany ?_ (ih hfs)).mono ?_
    · simp only [length_append, length_cons, length_nil]
      omega
    · rintro _ ⟨n, ns, rfl, hn, hns⟩
      exact .cons hn hns

/-- The items of a list, with or without a comma behind them. -/
theorem reads_listTrailing (comma : Bool) (rest : List Char) :
    ∃ mid, mid.dropWhile isGap = ']' :: rest ∧
      Reads (Reader.listTrailing self) (hiddenItems comma fs ++ ']' :: rest)
        (DenotesAll · fs) mid := by
  cases fs with
  | nil =>
    refine ⟨']' :: rest, rfl, ?_⟩
    have hrefuses : Refuses self (']' :: rest) := hclosing _ (closing_of_lead rfl (by decide))
    refine (Refuses.bind (Refuses.bind hrefuses)).attempt.bind fun o ho => ?_
    subst ho
    exact .pure .nil
  | cons f fs =>
    obtain ⟨hf, hfs⟩ := forall_mem_cons.mp hself
    have hends := ends_separator comma fs rest
    have hfirst : Reads self (hiddenItems comma (f :: fs) ++ ']' :: rest)
        (Denotes · (f.tree restored))
        (separator comma fs ++ (hiddenItems comma fs ++ ']' :: rest)) := by
      rw [hiddenItems_cons, append_assoc, append_assoc]
      exact hf _ _ (dropWhile_hidden f _) hends
    have hlist : Reads (Reader.list1 self) (hiddenItems comma (f :: fs) ++ ']' :: rest)
        (DenotesAll · (f :: fs)) (separator comma [] ++ ']' :: rest) :=
      hfirst.bind fun n hn => (readsMany_items hclosing hfs rest).many.bind fun ns hns =>
        .pure (.cons hn hns)
    obtain ⟨mid, hmid, hcomma⟩ := reads_trailingComma comma rest
    have hitems : Reads (do
          let items ← Reader.list1 self
          let _ ← Reader.attempt (Reader.symbol ",")
          return items)
        (hiddenItems comma (f :: fs) ++ ']' :: rest) (DenotesAll · (f :: fs)) mid :=
      hlist.bind fun ns hns => hcomma.bind fun _ _ => .pure hns
    refine ⟨mid, hmid, hitems.attempt.bind ?_⟩
    rintro _ ⟨ns, rfl, hns⟩
    exact .pure hns

/-- Arguments behind commas, up to the parenthesis; none stands behind the last comma. -/
theorem readsMany_args (rest : List Char) :
    ReadsMany (do Reader.symbol ","; Reader.attempt self)
      (',' :: ' ' :: (hiddenItems true fs ++ ')' :: rest))
      (fun os => DenotesAll (os.filterMap fun o => o) fs) (' ' :: ')' :: rest) := by
  induction fs with
  | nil =>
    have hrefuses : Refuses self (' ' :: ')' :: rest) :=
      hclosing _ (closing_of_lead rfl (by decide))
    have hlast : Reads (do Reader.symbol ","; Reader.attempt self)
        (',' :: ' ' :: ')' :: rest) (· = none) (' ' :: ')' :: rest) :=
      (reads_symbol rfl).bind fun _ _ => hrefuses.attempt
    have hend : Refuses (do Reader.symbol ","; Reader.attempt self) (' ' :: ')' :: rest) :=
      (refuses_symbol_of_lead (x := ',') rfl (by rintro ⟨⟩)).bind
    refine (hlast.readsMany (Nat.lt_succ_self _) hend.readsMany).mono ?_
    rintro _ ⟨_, _, rfl, rfl, rfl⟩
    exact .nil
  | cons f fs ih =>
    obtain ⟨hf, hfs⟩ := forall_mem_cons.mp hself
    rw [hiddenItems_cons, append_assoc, append_assoc]
    have harg : Reads (do Reader.symbol ","; Reader.attempt self)
        (',' :: ' ' :: (hidden f ++ (',' :: ' ' :: (hiddenItems true fs ++ ')' :: rest))))
        (fun o => ∃ n, o = some n ∧ Denotes n (f.tree restored))
        (',' :: ' ' :: (hiddenItems true fs ++ ')' :: rest)) :=
      (reads_symbol rfl).bind fun _ _ =>
        (hf (' ' :: _) _ (dropWhile_hidden f _) ⟨',', _, rfl, by decide⟩).attempt
    refine (harg.readsMany ?_ (ih hfs)).mono ?_
    · simp only [length_append, length_cons]
      omega
    · rintro _ ⟨_, os, rfl, ⟨n, rfl, hn⟩, hos⟩
      exact .cons hn hos

theorem reads_looseArgs (rest : List Char) :
    ∃ mid, mid.dropWhile isGap = ')' :: rest ∧
      Reads (Reader.looseArgs self) (hiddenItems true fs ++ ')' :: rest) (DenotesAll · fs) mid := by
  cases fs with
  | nil =>
    refine ⟨')' :: rest, rfl, ?_⟩
    have hrefuses : Refuses self (')' :: rest) := hclosing _ (closing_of_lead rfl (by decide))
    have hcomma : Refuses (do Reader.symbol ","; Reader.attempt self) (')' :: rest) :=
      (refuses_symbol_of_lead (x := ',') rfl (by rintro ⟨⟩)).bind
    refine hrefuses.attempt.bind fun o ho => hcomma.readsMany.many.bind fun os hos => ?_
    subst ho hos
    exact .pure .nil
  | cons f fs =>
    obtain ⟨hf, hfs⟩ := forall_mem_cons.mp hself
    refine ⟨' ' :: ')' :: rest, rfl, ?_⟩
    rw [hiddenItems_cons, append_assoc, append_assoc]
    refine (hf _ _ (dropWhile_hidden f _) ⟨',', _, rfl, by decide⟩).attempt.bind ?_
    rintro _ ⟨n, rfl, hn⟩
    exact (readsMany_args hclosing hfs rest).many.bind fun os hos => .pure (.cons hn hos)

theorem reads_callArgs (rest : List Char) :
    Reads (Reader.callArgs self) ('(' :: (hiddenItems true fs ++ ')' :: rest))
      (DenotesAll · fs) rest := by
  refine (reads_symbol rfl).bind fun _ _ => ?_
  obtain ⟨mid, hmid, hloose⟩ := reads_looseArgs hclosing hself rest
  -- a call may have blocks behind its arguments; here the parenthesis follows
  have hblock : Refuses (Reader.block self) mid := by
    refine (refuses_symbol_of_lead (x := ':') rfl ?_).bind
    rw [lead, hmid]
    rintro ⟨⟩
  refine hloose.bind fun ns hns => hblock.bind.readsMany.many.bind fun parts hparts => ?_
  refine (reads_symbol hmid).bind fun _ _ => .pure ?_
  subst hparts
  rwa [flatten_nil, append_nil]

end Items

/-! ### Nothing to read -/

theorem Closing.not_mem (h : Closing text) (hx : x ∉ [')', ']']) : x ∉ lead text :=
  fun hlead => hx (h x hlead)

/-- What starts with none of the characters that parts start with is no part. -/
theorem refuses_atom_of_lead (h : ∀ x ∈ lead text, isNameStart x = false ∧
    x ∉ ['"', '\'', '[', '\x7b', '(']) : Refuses (Reader.atom self) text := by
  have hlit : ∀ q ∈ ['"', '\''], Refuses (Reader.literal q) text := by
    intro q hq
    refine refuses_literal fun x hx => ⟨(h x hx).1, ?_⟩
    rintro rfl
    exact (h x hx).2 ((by decide : ∀ q ∈ ['"', '\''], q ∈ ['"', '\'', '[', '\x7b', '(']) x hq)
  have hopen : ∀ x ∈ ['[', '\x7b', '('], x ∉ lead text := fun x hx hlead =>
    (h x hlead).2 ((by decide : ∀ x ∈ ['[', '\x7b', '('], x ∈ ['"', '\'', '[', '\x7b', '(']) x hx)
  refine Refuses.orElse (hlit '"' (by decide)) ?_
  refine Refuses.orElse (hlit '\'' (by decide)) ?_
  refine Refuses.orElse (refuses_ident fun x hx => (h x hx).1).bind ?_
  refine Refuses.orElse (reads_offset.bind_refuses fun _ _ =>
    (refuses_symbol_of_lead rfl (hopen '[' (by decide))).bind) ?_
  refine Refuses.orElse (reads_offset.bind_refuses fun _ _ =>
    (refuses_symbol_of_lead rfl (hopen '\x7b' (by decide))).bind) ?_
  exact reads_offset.bind_refuses fun _ _ =>
    (refuses_symbol_of_lead rfl (hopen '(' (by decide))).bind

theorem refuses_atom (h : Closing text) : Refuses (Reader.atom self) text :=
  refuses_atom_of_lead fun x hx =>
    (by decide : ∀ x ∈ [')', ']'], isNameStart x = false ∧ x ∉ ['"', '\'', '[', '\x7b', '('])
      x (h x hx)

theorem subset_chainLevels : operatorsOf chainLevels ⊆ allOperators := by decide

theorem subset_expressionLevels : operatorsOf expressionLevels ⊆ allOperators := by decide

theorem refuses_operand (h : Closing text) : Refuses (Reader.operand self) text := by
  have hchain : Refuses (Reader.chain self) text :=
    (refuses_atom h).readLevels (h.bars.subset subset_chainLevels)
  have hdigits : Refuses (Reader.run1 isDecimal) (text.dropWhile isGap) :=
    refuses_run1 fun x hx => (by decide : ∀ x ∈ [')', ']'], isDecimal x = false) x (h x hx)
  refine Refuses.orElse (reads_offset.bind_refuses fun _ _ => hchain.bind) ?_
  refine Refuses.orElse (reads_offset.bind_refuses fun _ _ =>
    reads_gaps.bind_refuses fun _ _ => hdigits.bind) ?_
  refine Refuses.orElse (reads_offset.bind_refuses fun _ _ =>
    reads_gaps.bind_refuses fun _ _ => hdigits.bind) ?_
  exact reads_offset.bind_refuses fun _ _ =>
    (refuses_symbol_of_lead rfl (h.not_mem (by decide))).bind

/-- No expression stands at the end of arguments, items or a text. -/
theorem refuses_expression (n : Nat) (h : Closing text) : Refuses (expression n) text := by
  cases n with
  | zero => exact fun _ _ => rfl
  | succ n =>
    exact reads_offset.bind_refuses fun _ _ =>
      ((refuses_operand h).readLevels (h.bars.subset subset_expressionLevels)).bind

/-! ### Operands -/

/-- Nothing is applied to what stands before the text. -/
theorem refuses_application (h : ∀ x ∈ ['(', '[', '\x7b'], x ∉ lead rest) :
    Refuses (Reader.application self) rest := by
  have hcall : Refuses (Reader.callArgs self) rest :=
    (refuses_symbol_of_lead rfl (h '(' (by decide))).bind
  refine Refuses.bind (Refuses.orElse hcall.bind (Refuses.orElse ?_ ?_))
  · exact (refuses_symbol_of_lead rfl (h '[' (by decide))).bind
  · exact (refuses_symbol_of_lead rfl (h '\x7b' (by decide))).bind

theorem Ends.refuses_application (h : Ends rest) : Refuses (Reader.application self) rest := by
  obtain ⟨x, hx, hlead, -⟩ := h.lead
  refine Source.refuses_application ?_
  rw [hlead]
  rintro y hy ⟨⟩
  exact (by decide : ∀ x ∈ enders, x ∉ ['(', '[', '\x7b']) x hx hy

theorem reads_operand {P : Node → Prop} (h : Reads (Reader.atom self) text P rest)
    (hstart : Bars allOperators text) (hend : Bars (operatorsOf chainLevels) rest)
    (happ : Refuses (Reader.application self) rest) : Reads (Reader.operand self) text P rest := by
  refine Reads.orElse (reads_offset.bind fun loc _ => ?_)
  refine (h.readLevels (hstart.subset subset_chainLevels) hend).bind fun n hn =>
    happ.readsMany.many.bind fun as has => ?_
  subst has
  exact .pure hn

theorem reads_atom_text (t : String) (htext : text.dropWhile isGap = hidden (.text t) ++ rest)
    (hrest : Ends rest) :
    Reads (Reader.atom self) text (DenotesOperand · ((Outline.text t).tree restored)) rest := by
  obtain ⟨x, hx, -, hhead⟩ := hrest.lead
  have hinner : text.dropWhile isGap = '"' :: (t.toList.flatMap hideChar ++ '"' :: rest) := by
    rw [htext]
    simp [hidden, Outline.print, hiddenQuote, quoteWith]
  refine Reads.orElse ((reads_literal (sealed_hideChar t.toList) hinner ?_).mono ?_)
  · rw [hhead]
    rintro _ ⟨⟩
    exact (by decide : ∀ x ∈ enders, isNameStart x = false) x hx
  · rintro _ ⟨loc, rfl⟩
    rw [literalValue_hideChar]
    exact ⟨denotes_make (by simp) .nil .nil, fun h => by cases h⟩

theorem reads_atom_name {cs : List Char} (htext : text.dropWhile isGap = x :: (cs ++ rest))
    (hx : isNameStart x = true) (hcs : ∀ d ∈ cs, isNameChar d = true)
    (hword : ∀ w ∈ reservedWords, w.toList ≠ x :: cs)
    (hstop : ∀ d ∈ rest.head?, isWordChar d = false ∧ d ≠ '"' ∧ d ≠ '\'')
    (htemplate : '<' ∉ lead rest) : Reads (Reader.atom self) text
      (fun n => ∃ loc, n = ident (String.ofList (x :: cs)) loc) rest := by
  have hend : ∀ d ∈ rest.head?, isWordChar d = false := fun d hd => (hstop d hd).1
  have hargs : Refuses (Reader.templateArgs self) rest :=
    (refuses_symbol_of_lead rfl htemplate).bind
  -- the name could be the start of a literal, but no quote follows it
  refine (refuses_literal_of_ident htext hx hcs hend hword
    fun hd => (hstop _ hd).2.1 rfl).orElse_reads ?_
  refine (refuses_literal_of_ident htext hx hcs hend hword
    fun hd => (hstop _ hd).2.2 rfl).orElse_reads ?_
  refine Reads.orElse ((reads_ident htext hx hcs hend hword).bind fun n hn => ?_)
  refine hargs.attempt.bind fun o ho => ?_
  subst ho
  exact .pure hn

/-- The name of a class is read as a name. -/
theorem reads_atom_ident (hname : isClassName name = true)
    (htext : text.dropWhile isGap = name.toList ++ rest)
    (hrest : ∃ x ∈ '(' :: enders, lead rest = some x ∧ rest.head? = some x) :
    Reads (Reader.atom self) text (fun n => ∃ loc, n = ident name loc) rest := by
  obtain ⟨x, cs, hlist, hx, hcs⟩ := ClassName.exists_cons ⟨name, hname⟩
  have hlist : name.toList = x :: cs := hlist
  obtain ⟨y, hy, hlead, hhead⟩ := hrest
  have hend := (by decide : ∀ y ∈ '(' :: enders, isWordChar y = false ∧ y ≠ '"' ∧
      y ≠ '\'' ∧ y ≠ '<') y hy
  -- reserved words start with small letters
  have hword : ∀ w ∈ reservedWords, w.toList ≠ x :: cs := by
    have := of_isUpper (fun x => decide (∀ w ∈ reservedWords, w.toList.head? ≠ some x))
        (by decide) hx
    intro w hw heq
    exact (of_decide_eq_true this) w hw (by rw [heq, head?_cons])
  have hstop : ∀ d ∈ rest.head?, isWordChar d = false ∧ d ≠ '"' ∧ d ≠ '\'' := by
    rw [hhead]
    rintro _ ⟨⟩
    exact ⟨hend.1, hend.2.1, hend.2.2.1⟩
  have htemplate : '<' ∉ lead rest := by
    rw [hlead]
    rintro ⟨⟩
    exact hend.2.2.2 rfl
  rw [hlist] at htext
  refine (reads_atom_name htext (of_isUpper isNameStart (by decide) hx) hcs hword hstop
    htemplate).mono fun n hn => ?_
  rwa [← hlist, String.ofList_toList] at hn

theorem reads_operand_ident (hname : isClassName name = true)
    (htext : text.dropWhile isGap = name.toList ++ rest) (hstart : Bars allOperators text)
    (hrest : Ends rest) :
    Reads (Reader.operand self) text (DenotesOperand · (ident name)) rest := by
  obtain ⟨x, hx, hend⟩ := hrest.lead
  have hatom : Reads (Reader.atom self) text (fun n => ∃ loc, n = ident name loc) rest :=
    reads_atom_ident hname htext ⟨x, mem_cons_of_mem _ hx, hend⟩
  refine (reads_operand hatom hstart (hrest.bars.subset subset_chainLevels)
    hrest.refuses_application).mono ?_
  rintro _ ⟨loc, rfl⟩
  exact ⟨denotes_ident name loc, nofun⟩

theorem bars_outline {f : Outline} (htext : text.dropWhile isGap = hidden f ++ rest) :
    Bars allOperators text := by
  obtain ⟨x, cs, hf, hx⟩ := exists_hidden_eq_cons f
  refine bars_of_isStart ⟨x, ?_, hx⟩
  rw [lead, htext, hf]
  rfl

section Parts

variable (hclosing : ∀ text, Closing text → Refuses self text)
  (hself : ∀ f ∈ fs, ReadsOutline self f)

include hclosing hself

/-- The items in brackets are read as a list. -/
theorem reads_atom_list
    (htext : text.dropWhile isGap = '[' :: (hiddenItems comma fs ++ ']' :: rest)) :
    Reads (Reader.atom self) text
      (DenotesOperand · (make .list none (Outline.treeList restored fs))) rest := by
  have hlead : ∀ x ∈ lead text, x = '[' := by
    rw [lead, htext]
    rintro _ ⟨⟩
    rfl
  have hlit : ∀ q, '[' ≠ q → Refuses (Reader.literal q) text := by
    intro q hq
    refine refuses_literal fun x hx => ?_
    rw [hlead x hx]
    exact ⟨by decide, hq⟩
  refine (hlit '"' (by decide)).orElse_reads ((hlit '\'' (by decide)).orElse_reads ?_)
  refine Refuses.orElse_reads (Refuses.bind (refuses_ident fun x hx => ?_)) ?_
  · rw [hlead x hx]
    decide
  obtain ⟨mid, hmid, hitems⟩ := reads_listTrailing hclosing hself comma rest
  refine Reads.orElse (reads_offset.bind fun loc _ =>
    (reads_symbol (s := "[") htext).bind fun _ _ => ?_)
  refine hitems.bind fun ns hns => (reads_symbol hmid).bind fun _ _ => .pure ?_
  exact ⟨denotes_make (by simp) .nil hns.tree, fun h => by cases h⟩

/-- A constructor and its arguments are read as a call. -/
theorem reads_operand_apply {name : ClassName}
    (htext : text.dropWhile isGap = hidden (.apply name fs loc) ++ rest) (hrest : Ends rest) :
    Reads (Reader.operand self) text
      (DenotesOperand · ((Outline.apply name fs loc).tree restored)) rest := by
  have hname : text.dropWhile isGap =
      name.val.toList ++ '(' :: (hiddenItems true fs ++ ')' :: rest) := by
    rw [htext, hidden_apply]
    simp
  have hatom : Reads (Reader.atom self) text (fun n => ∃ loc, n = ident name.val loc) _ :=
    reads_atom_ident name.property hname ⟨'(', by decide, rfl, rfl⟩
  have hmid : Bars allOperators ('(' :: (hiddenItems true fs ++ ')' :: rest)) :=
    bars_of_lead (show allOperators.any (Operator.mayStart (some '(')) = false by decide)
  have happ : Reads (Reader.application self) ('(' :: (hiddenItems true fs ++ ')' :: rest))
      (fun a => a.kind = .call false ∧ DenotesAll a.args fs ∧ a.selection = none) rest := by
    have hargs := (reads_callArgs hclosing hself rest).bind
      (f := fun args => pure (Kind.call false, args))
      (Q := fun b => b.1 = .call false ∧ DenotesAll b.2 fs) fun ns hns => .pure ⟨rfl, hns⟩
    refine (Reads.orElse hargs).bind fun ⟨kind, args⟩ ⟨hkind, hargs⟩ => ?_
    have hselection := refuses_firstOf (hrest.bars.subset (by decide :
      [.symbol ".", .symbol "->", .symbol "::"] ⊆ allOperators))
    refine (Refuses.bind hselection).attempt.bind fun o ho => .pure ⟨hkind, hargs, ho⟩
  -- one application, and nothing is applied to its result
  have hmany := happ.readsMany (by simp; omega) hrest.refuses_application.readsMany
  refine Reads.orElse (reads_offset.bind fun loc _ => ?_)
  refine (hatom.readLevels ((bars_outline htext).subset subset_chainLevels)
    (hmid.subset subset_chainLevels)).bind ?_
  rintro _ ⟨loc', rfl⟩
  refine hmany.many.bind ?_
  rintro _ ⟨⟨kind, args, selection⟩, _, rfl, ⟨rfl, hargs, rfl⟩, rfl⟩
  exact .pure ⟨denotes_make nofun (.cons (denotes_ident _ _) .nil) hargs.tree, nofun⟩

end Parts

/-! ### Expressions -/

def colonLevel : Level := { fixity := .right, operators := [.symbol ":"] }

/-- The levels that bind more tightly than the colon. -/
def tightLevels : List Level := expressionLevels.take 13

/-- The levels that bind less tightly than the colon. -/
def looseLevels : List Level := expressionLevels.drop 14

theorem expressionLevels_eq : expressionLevels = tightLevels ++ colonLevel :: looseLevels := rfl

theorem readLevels_append (levels levels' : List Level) (operand : Reader Node) :
    readLevels (levels ++ levels') operand = readLevels levels' (readLevels levels operand) :=
  foldl_append

/-- A colon gives a type to what is read before it. -/
theorem reads_typed {last : Reader Node} {mid : List Char} {tree type : Node}
    (htext : text ≠ []) (h : Reads last text (Denotes · tree) (':' :: mid))
    (htype : Reads last mid (Denotes · type) rest) (hrest : Bars colonLevel.operators rest) :
    Reads (colonLevel.reader last) text
      (DenotesOperand · (ofBinary .typed ":" tree type)) rest := by
  intro c hc
  -- a chain may have as many members as characters are left, of which two are used up here
  obtain ⟨k, hk⟩ : ∃ k, c.rest.length = k + 1 :=
    Nat.exists_eq_succ_of_ne_zero (by rwa [hc, ne_eq, length_eq_zero_iff])
  have hcolon : Reads (Reader.firstOf colonLevel.operators) (':' :: mid) (· = ":") mid :=
    Reads.orElse ((reads_symbol rfl).bind fun _ _ => .pure rfl)
  have hstep : Reads (do return (← Reader.firstOf colonLevel.operators,
      ← Reader.rightChain colonLevel last k))
      (':' :: mid) (fun b => b.1 = ":" ∧ Denotes b.2 type) rest :=
    hcolon.bind fun op hop => Reads.bind (fun c hc => (htype c hc).rightChain hrest k)
      fun n hn => .pure ⟨hop, hn⟩
  have hchain : Reads (Reader.rightChain colonLevel last (k + 1)) text
      (DenotesOperand · (ofBinary .typed ":" tree type)) rest := by
    refine reads_offset.bind fun loc _ => h.bind fun n hn => hstep.settle.bind ?_
    rintro _ ⟨⟨op, rhs⟩, rfl, rfl, hrhs⟩
    refine (refuses_firstOf hrest).bind.readsMany.many.bind fun more hmore => ?_
    subst hmore
    exact .pure ⟨denotes_make nofun .nil (.cons hn (.cons hrhs .nil)), nofun⟩
  rw [← hk] at hchain
  exact hchain c hc

/-- A colon before a blank is no operator that binds more tightly. -/
theorem bars_colon (rest : List Char) :
    Bars (operatorsOf (chainLevels ++ tightLevels)) (':' :: ' ' :: rest) := by
  intro o ho
  -- among these operators only the double colon starts with a colon
  have hcases := (by decide : ∀ o ∈ operatorsOf (chainLevels ++ tightLevels),
    o = .symbol "::" ∨ [o].any (Operator.mayStart (some ':')) = false) o ho
  rcases hcases with rfl | hstart
  · exact refuses_operator rfl
  · exact bars_of_lead hstart o (mem_singleton_self o)

section Expression

variable {n : Nat} {tree : Node}

/-- The tight levels leave an operand as it is, also before a colon. -/
theorem reads_tightLevels {operand : Reader Node}
    (h : Reads operand text (DenotesOperand · tree) rest) (hstart : Bars allOperators text)
    (hend : Bars (operatorsOf tightLevels) rest) :
    Reads (readLevels tightLevels operand) text (Denotes · tree) rest :=
  (h.mono fun _ hm => hm.1).readLevels (hstart.subset (by decide)) hend

theorem reads_expression (h : Reads (readLevels expressionLevels (Reader.operand (expression n)))
    text (DenotesOperand · tree) rest) : Reads (expression (n + 1)) text (Denotes · tree) rest :=
  reads_offset.bind fun loc _ => h.bind fun _ hm => .pure (hm.1.wrapper hm.2 loc)

theorem reads_expression_of_operand (hstart : Bars allOperators text) (hrest : Ends rest)
    (h : Reads (Reader.operand (expression n)) text (DenotesOperand · tree) rest) :
    Reads (expression (n + 1)) text (Denotes · tree) rest :=
  reads_expression (h.readLevels (hstart.subset subset_expressionLevels)
    (hrest.bars.subset subset_expressionLevels))

theorem readsOutline_nothing : ReadsOutline (expression (n + 1)) .nothing := by
  intro text rest htext hrest
  have hstart := bars_outline (f := .nothing) htext
  exact reads_expression_of_operand hstart hrest
    (reads_operand_ident (by decide) htext hstart hrest)

/-- The stand-in of a hole is read as a name. -/
theorem readsOutline_free (number : Nat) : ReadsOutline (expression (n + 1)) (.free number) := by
  intro text rest htext hrest
  have hstart := bars_outline (f := .free number) htext
  obtain ⟨cs, hname, hcs⟩ := exists_freshName_eq_cons number
  have hlist : text.dropWhile isGap = 'c' :: (cs ++ rest) :=
    htext.trans (congrArg (· ++ rest) hname)
  obtain ⟨x, hx, hlead, hhead⟩ := hrest.lead
  have hend := (by decide : ∀ x ∈ enders,
    isWordChar x = false ∧ x ≠ '"' ∧ x ≠ '\'' ∧ x ≠ '<') x hx
  have hatom : Reads (Reader.atom (expression n)) text
      (fun m => ∃ loc, m = ident (String.ofList ('c' :: cs)) loc) rest := by
    refine reads_atom_name hlist (by decide) hcs ?_ ?_ ?_
    · intro w hw heq
      exact (by decide : ∀ w ∈ reservedWords, w.toList.head? ≠ some 'c') w hw (by rw [heq]; rfl)
    · rw [hhead]
      rintro _ ⟨⟩
      exact ⟨hend.1, hend.2.1, hend.2.2.1⟩
    · rw [hlead]
      rintro ⟨⟩
      exact hend.2.2.2 rfl
  refine reads_expression_of_operand hstart hrest ((reads_operand hatom hstart
    (hrest.bars.subset subset_chainLevels) hrest.refuses_application).mono ?_)
  rintro _ ⟨loc, rfl⟩
  rw [← hname, String.ofList_toList]
  exact ⟨denotes_ident _ loc, nofun⟩

theorem readsOutline_text (t : String) : ReadsOutline (expression (n + 1)) (.text t) := by
  intro text rest htext hrest
  have hstart := bars_outline htext
  refine reads_expression_of_operand hstart hrest ?_
  exact reads_operand (reads_atom_text t htext hrest) hstart
    (hrest.bars.subset subset_chainLevels) hrest.refuses_application

/-- A list is read if its items are. -/
theorem readsOutline_list {items : List Outline}
    (hitems : ∀ f ∈ items, ReadsOutline (expression n) f) :
    ReadsOutline (expression (n + 1)) (.list items comma) := by
  intro text rest htext hrest
  have hopen : text.dropWhile isGap =
      '[' :: (hiddenItems comma items ++ ']' :: (": Node".toList ++ rest)) := by
    rw [htext, hidden_list]
    simp
  have hstart := bars_outline htext
  have hcolon := bars_colon ("Node".toList ++ rest)
  have hlist : Reads (Reader.operand (expression n)) text
      (DenotesOperand · (make .list none (Outline.treeList restored items)))
      (':' :: ' ' :: ("Node".toList ++ rest)) := by
    refine reads_operand (reads_atom_list (fun _ => refuses_expression n) hitems hopen) hstart
      (hcolon.subset (by decide)) (refuses_application ?_)
    rintro x hx ⟨⟩
    exact absurd hx (by decide)
  have hstart' : Bars allOperators (' ' :: ("Node".toList ++ rest)) :=
    bars_of_isStart ⟨'N', rfl, by decide⟩
  have htype : Reads (Reader.operand (expression n)) (' ' :: ("Node".toList ++ rest))
      (DenotesOperand · (ident "Node")) rest :=
    reads_operand_ident (by decide) rfl hstart' hrest
  have hne : text ≠ [] := by
    rintro rfl
    cases hopen
  -- the tight levels read the list and its type, the level of the colon joins them
  have htyped := reads_typed hne (reads_tightLevels hlist hstart (hcolon.subset (by decide)))
    (reads_tightLevels htype hstart' (hrest.bars.subset (by decide)))
    (hrest.bars.subset (by decide))
  have hloose : Reads (readLevels looseLevels _) text _ rest :=
    htyped.readLevels (hstart.subset (by decide)) (hrest.bars.subset (by decide))
  refine reads_expression ?_
  rw [expressionLevels_eq, readLevels_append]
  exact hloose

theorem readsOutline_apply {name : ClassName} {args : List Outline}
    (hargs : ∀ f ∈ args, ReadsOutline (expression n) f) :
    ReadsOutline (expression (n + 1)) (.apply name args loc) := by
  intro text rest htext hrest
  refine reads_expression_of_operand (bars_outline htext) hrest ?_
  exact reads_operand_apply (fun _ => refuses_expression n) hargs htext hrest

end Expression

theorem length_hidden_le {f : Outline} {fs : List Outline} (comma : Bool) (h : f ∈ fs) :
    (hidden f).length ≤ (hiddenItems comma fs).length := by
  induction fs with
  | nil => cases h
  | cons g fs ih =>
    rw [hiddenItems_cons, length_append, length_append]
    rcases mem_cons.mp h with rfl | h
    · omega
    · have := ih h
      omega

/-- **Expressions take outlines for their trees**, if they may be nested deeply enough. -/
theorem readsOutline_expression (f : Outline) :
    ∀ n, (hidden f).length ≤ n → ReadsOutline (expression n) f := by
  -- an outline is longer than its parts, which are read by expressions nested one level less
  have hpos : ∀ n (f : Outline), (hidden f).length ≤ n → ∃ k, n = k + 1 := by
    intro n f hn
    obtain ⟨x, cs, hf, -⟩ := exists_hidden_eq_cons f
    rw [hf, length_cons] at hn
    exact ⟨n - 1, by omega⟩
  induction f using Outline.induction with
  | nothing =>
    intro n hn
    obtain ⟨n, rfl⟩ := hpos n _ hn
    exact readsOutline_nothing
  | free number =>
    intro n hn
    obtain ⟨n, rfl⟩ := hpos n _ hn
    exact readsOutline_free number
  | text t =>
    intro n hn
    obtain ⟨n, rfl⟩ := hpos n _ hn
    exact readsOutline_text t
  | list items comma ih =>
    intro n hn
    obtain ⟨n, rfl⟩ := hpos n _ hn
    refine readsOutline_list fun f hf => ih f hf n ?_
    have hlength := length_hidden_le comma hf
    rw [hidden_list, length_cons, length_append] at hn
    omega
  | apply name args loc ih =>
    intro n hn
    obtain ⟨n, rfl⟩ := hpos n _ hn
    refine readsOutline_apply fun f hf => ih f hf n ?_
    have hlength := length_hidden_le true hf
    rw [hidden_apply, length_append, length_cons, length_append] at hn
    omega

end Source

end Cppward
