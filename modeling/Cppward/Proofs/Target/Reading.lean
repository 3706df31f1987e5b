import Cppward.Proofs.Target.Token
import Mathlib

namespace Cppward.Target

open List
open Option (bind_some map_some)
open String (ofList)

/-!
# Reading an expression of the target language

An expression is read token by token: a call, an index and `->` bind tighter than prefix operators,
these tighter than binary operators, and binary operators are grouped by their precedence.

The reader knows the library functions that generated code puts around its operands: `std::move(x)`
is read as `x`, `ceto::bounds_check(x, i)` as an index, and the function templates that make
instances as the classes whose instances they make.

* `step`, `run`, `read` — the reader,
* `Flat`, `Reads` — operands and operators that are not grouped yet, and tokens that contribute them,
* `Reads.joined`, `Reads.call`, … — what composed tokens contribute,
* `group_append` — where operands are split in two, so is the expression, if the parts are as large
  as they should be,
* `Flat.reading_eq_iff`, `Flat.reading_sign_eq_iff`, `Flat.reading_join_eq_iff` — when operands make a
  given expression.
-/

variable {ts us : List Token} {tss : List (List Token)} {f g : Flat} {o w : List Char}
  {fs : List Flat} {s : String} {lhs rhs r : Reading}

/-- An expression of the target language as it is grouped. -/
inductive Reading where
  | name (text : String)
  | prefixed (op : String) (arg : Reading)
  | infixed (op : String) (lhs rhs : Reading)
  | member (target part : Reading)
  | index (target place : Reading)
  | applied (func : Reading) (args : List Reading)
  deriving Inhabited, Repr

/-- The spelling in the target language of a word that has another one besides. -/
def canonical (s : String) : String :=
  match s with
  | "None" => "nullptr"
  | "True" => "true"
  | "False" => "false"
  | "string" => "std::string"
  | s => s

/-! ### Precedence -/

/-- The binary operators and their precedence; less binds tighter. -/
def precedences : List (String × Nat) :=
  [("*", 5), ("/", 5), ("%", 5), ("+", 6), ("-", 6), ("<<", 7), (">>", 7), ("<=>", 8),
    ("<", 9), ("<=", 9), (">", 9), (">=", 9), ("==", 10), ("!=", 10), ("&", 11), ("^", 12),
    ("|", 13), ("&&", 14), ("||", 15), ("=", 16), ("+=", 16), ("-=", 16), ("*=", 16), ("/=", 16),
    ("%=", 16), ("<<=", 16), (">>=", 16), ("&=", 16), ("|=", 16), ("^=", 16)]

def precedence (op : String) : Nat := (precedences.lookup op).getD 0

/-- An operator `inner` on the right of `outer` takes the operand between them.  Assignments are
    grouped from the right. -/
def takes (inner outer : String) : Bool :=
  precedence inner < precedence outer || (precedence inner == 16 && precedence outer == 16)

/-- Operands grouped by the operators between them. -/
inductive Chain where
  | leaf (r : Reading)
  | node (op : String) (lhs rhs : Chain)

namespace Chain

/-- Adds an operator and an operand on the right. -/
def extend (op : String) (r : Reading) : Chain → Chain
  | leaf x => node op (leaf x) (leaf r)
  | node outer lhs rhs =>
    if takes op outer then node outer lhs (rhs.extend op r) else node op (node outer lhs rhs) (leaf r)

def reading : Chain → Reading
  | leaf r => r
  | node op lhs rhs => .infixed op lhs.reading rhs.reading

/-- A first operand, and operators each with the operand after it. -/
def ofOperands (first : Reading) (more : List (String × Reading)) : Chain :=
  more.foldl (fun c o => c.extend o.1 o.2) (leaf first)

end Chain

/-- Operands each with the operator after it, and a last operand, seen from the first operand. -/
def spread : List (Reading × String) → Reading → Reading × List (String × Reading)
  | [], last => (last, [])
  | (x, op) :: done, last => (x, (op, (spread done last).1) :: (spread done last).2)

/-- The expression that operands and operators make. -/
def group (done : List (Reading × String)) (last : Reading) : Reading :=
  (Chain.ofOperands (spread done last).1 (spread done last).2).reading

/-! ### The reader -/

def signOperators : List String := ["!", "*", "&", "-", "+", "~"]

/-- An operand with prefix operators, outermost first. -/
def signed (signs : List String) (r : Reading) : Reading := signs.foldr .prefixed r

/-- The operand that is being read. -/
inductive Slot where
  | empty
  | full (r : Reading)
  /-- The name of a member is to follow. -/
  | selecting (target : Reading)

/-- An expression that is being read: operands each with the operator after it, and the prefix
    operators and the rest of the operand at hand. -/
structure Progress where
  done : List (Reading × String)
  signs : List String
  slot : Slot

def Progress.start : Progress := ⟨[], [], .empty⟩

def Progress.isStart : Progress → Bool
  | ⟨[], [], .empty⟩ => true
  | _ => false

def Progress.reading? (p : Progress) : Option Reading :=
  match p.slot with
  | .full r => some (group p.done (signed p.signs r))
  | _ => none

/-- An open bracket: the expression that it stands in, what it belongs to if it holds arguments, and
    the arguments read so far. -/
structure Frame where
  bracket : Bracket
  outer : Progress
  func : Option Reading
  args : List Reading

/-- The reader is in an expression, or in the arguments of a template, where it looks for the class
    that instances are made of. -/
inductive State where
  | expression (frames : List Frame) (p : Progress)
  | template (frames : List Frame) (p : Progress) (depth : Nat) (made : Option String)

/-- A call, as the library functions are understood. -/
def call (func : Reading) (args : List Reading) : Reading :=
  match func, args with
  | .name "std::move", [r] => r
  | .name "ceto::bounds_check", [target, place] => .index target place
  | func, args => .applied func args

/-- The function templates that make instances of a class. -/
def makers : List String :=
  ["ceto::make_shared_propagate_const", "ceto::make_unique_propagate_const"]

def Progress.word (p : Progress) (s : String) : Option Progress :=
  match p.slot with
  | .empty => some { p with slot := .full (.name (canonical s)) }
  | .selecting target => some { p with slot := .full (.member target (.name (canonical s))) }
  | .full _ => none

def Progress.op (p : Progress) (s : String) : Option Progress :=
  match p.slot with
  | .empty => if signOperators.contains s then some { p with signs := p.signs ++ [s] } else none
  | .selecting _ => none
  | .full r =>
    if s == "->" then some { p with slot := .selecting r }
    else if (precedences.lookup s).isSome then
      some ⟨p.done ++ [(signed p.signs r, s)], [], .empty⟩
    else none

/-- What a closed bracket makes of the expression around it.  Only arguments may be missing. -/
def Frame.close (f : Frame) (p : Progress) : Option Progress :=
  match f.func, p.reading? with
  | none, some r => some { f.outer with slot := .full r }
  | some func, some r => some { f.outer with slot := .full (call func (f.args ++ [r])) }
  | some func, none =>
    if p.isStart && f.args.isEmpty then some { f.outer with slot := .full (call func []) } else none
  | none, none => none

def stepExpression (frames : List Frame) (p : Progress) : Token → Option State
  | .blank => some (.expression frames p)
  | .word w => (p.word (ofList w)).map (.expression frames)
  | .op o => (p.op (ofList o)).map (.expression frames)
  | .opening b =>
    match p.slot, b with
    | .empty, .round => some (.expression (⟨b, p, none, []⟩ :: frames) .start)
    | .full func, b => some (.expression (⟨b, p, some func, []⟩ :: frames) .start)
    | _, _ => none
  | .closing b =>
    match frames with
    | [] => none
    | f :: frames => if f.bracket = b then (f.close p).map (.expression frames) else none
  | .comma =>
    match frames with
    | [] => none
    | f :: frames =>
      if f.func.isSome then
        p.reading?.map fun r => .expression ({ f with args := f.args ++ [r] } :: frames) .start
      else none
  | .angle =>
    match p.slot with
    | .full (.name s) => if makers.contains s then some (.template frames p 0 none) else none
    | _ => none

/-- Reads a token in the arguments of a template, with `depth` brackets open in them.  The class is
    the first word that is no specifier. -/
def stepTemplate (frames : List Frame) (p : Progress) (depth : Nat) (made : Option String) :
    Token → Option State
  | .word w =>
    let s := ofList w
    some (.template frames p depth (made.or (if ["const", "decltype"].contains s then none else some s)))
  | .opening _ => some (.template frames p (depth + 1) made)
  | .closing _ => if depth = 0 then none else some (.template frames p (depth - 1) made)
  | .blank => some (.template frames p depth made)
  | .op o =>
    match depth, made with
    | _ + 1, _ => some (.template frames p depth made)
    | 0, some s =>
      if o = ['>'] then some (.expression frames { p with slot := .full (.name (canonical s)) })
      else none
    | 0, none => none
  | .comma | .angle => if depth = 0 then none else some (.template frames p depth made)

def step : State → Token → Option State
  | .expression frames p, t => stepExpression frames p t
  | .template frames p depth made, t => stepTemplate frames p depth made t

def run (s : State) (ts : List Token) : Option State := ts.foldlM step s

/-- The expression that a text is, if it is one. -/
def read (code : String) : Option Reading := do
  let tokens ← lex 0 code.toList
  match ← run (.expression [] .start) tokens with
  | .expression [] p => p.reading?
  | _ => none

theorem run_append (s : State) (ts us : List Token) :
    run s (ts ++ us) = (run s ts).bind (run · us) :=
  foldlM_append ..

theorem run_cons (s : State) (t : Token) (ts : List Token) :
    run s (t :: ts) = (step s t).bind (run · ts) :=
  foldlM_cons ..

/-! ### Operands that are not grouped yet -/

/-- Operands each with the operator after it, and the prefix operators and the rest of the last
    operand. -/
structure Flat where
  before : List (Reading × String)
  signs : List String
  last : Reading

namespace Flat

/-- A single operand without prefix operators. -/
def single (r : Reading) : Flat := ⟨[], [], r⟩

/-- The expression in which the operands are grouped. -/
def reading (f : Flat) : Reading := group f.before (signed f.signs f.last)

/-- Nothing but one operand without prefix operators. -/
def IsClosed (f : Flat) : Prop := f.before = [] ∧ f.signs = []

/-- A prefix operator in front. -/
def sign (op : String) (f : Flat) : Flat :=
  match f.before with
  | [] => { f with signs := op :: f.signs }
  | (x, o) :: more => { f with before := (.prefixed op x, o) :: more }

/-- Two parts joined by an operator. -/
def join (op : String) (f g : Flat) : Flat :=
  { g with before := f.before ++ (signed f.signs f.last, op) :: g.before }

/-- The expression at hand after the operands have been read. -/
def onto (f : Flat) (done : List (Reading × String)) (signs : List String) : Progress :=
  match f.before with
  | [] => ⟨done, signs ++ f.signs, .full f.last⟩
  | (x, o) :: more => ⟨done ++ (signed signs x, o) :: more, f.signs, .full f.last⟩

theorem onto_start (f : Flat) : f.onto [] [] = ⟨f.before, f.signs, .full f.last⟩ := by
  obtain ⟨before, signs, last⟩ := f
  cases before <;> rfl

theorem onto_slot (f : Flat) (done : List (Reading × String)) (signs : List String) :
    (f.onto done signs).slot = .full f.last := by
  obtain ⟨before, fsigns, last⟩ := f
  cases before <;> rfl

/-- What happens to the last operand does not touch the others. -/
theorem onto_last (f : Flat) (r : Reading) (done : List (Reading × String)) (signs : List String) :
    { f with last := r }.onto done signs = { f.onto done signs with slot := .full r } := by
  obtain ⟨before, fsigns, last⟩ := f
  cases before <;> rfl

end Flat

/-- Read where an operand is expected, the tokens contribute the operands `f`. -/
def Reads (ts : List Token) (f : Flat) : Prop :=
  ∀ frames done signs, run (.expression frames ⟨done, signs, .empty⟩) ts =
    some (.expression frames (f.onto done signs))

/-- Read in brackets inside the arguments of a template, the tokens are passed over. -/
def Skips (ts : List Token) : Prop :=
  ∀ frames p depth s, run (.template frames p (depth + 1) (some s)) ts =
    some (.template frames p (depth + 1) (some s))

theorem Skips.append (ht : Skips ts) (hu : Skips us) : Skips (ts ++ us) := by
  intro frames p depth s
  rw [run_append, ht, bind_some, hu]

theorem skips_nil : Skips [] := fun _ _ _ _ => rfl

/-- Tokens between which separators are passed over are passed over as a whole. -/
theorem Skips.intercalate {sep : List Token} (hsep : Skips sep)
    (h : ∀ ts ∈ tss, Skips ts) : Skips (sep.intercalate tss) := by
  induction tss with
  | nil => exact skips_nil
  | cons ts tss ih =>
    have hts := h ts mem_cons_self
    cases tss with
    | nil => rwa [intercalate_singleton]
    | cons us tss =>
      rw [intercalate_cons_cons]
      exact (hts.append hsep).append (ih fun vs hvs => h vs (mem_cons_of_mem ts hvs))

/-- Only brackets count in the arguments of a template. -/
theorem skips_single {t : Token} (h : ∀ b, t ≠ .opening b ∧ t ≠ .closing b) : Skips [t] := by
  intro frames p depth s
  cases t with
  | opening b => exact absurd rfl (h b).1
  | closing b => exact absurd rfl (h b).2
  | _ => rfl

theorem Skips.bracketed (h : Skips ts) (b : Bracket) :
    Skips (.opening b :: (ts ++ [.closing b])) := by
  intro frames p depth s
  rw [run_cons]
  show run (.template frames p (depth + 1 + 1) (some s)) (ts ++ [.closing b]) = _
  rw [run_append, h]
  rfl

/-! ### What composed tokens contribute -/

theorem run_spaced (frames : List Frame) (p : Progress) (o : List Char) :
    run (.expression frames p) [.blank, .op o, .blank] =
      (p.op (ofList o)).map (.expression frames) := by
  rw [run_cons, step, stepExpression, bind_some, run_cons, step, stepExpression]
  cases p.op (ofList o) <;> rfl

theorem reads_word (w : List Char) :
    Reads [.word w] (.single (.name (canonical (ofList w)))) := by
  intro frames done signs
  show some (State.expression frames ⟨done, signs, .full _⟩) = _
  rw [Flat.onto, Flat.single, append_nil]

/-- A prefix operator goes to the first of the operands behind it. -/
theorem Reads.sign (h : Reads ts f) (ho : ofList o ∈ signOperators) :
    Reads (.op o :: ts) (f.sign (ofList o)) := by
  intro frames done signs
  have hop : (Progress.mk done signs .empty).op (ofList o) =
      some ⟨done, signs ++ [ofList o], .empty⟩ := by
    simp [Progress.op, ho]
  rw [run_cons, step, stepExpression, hop, map_some, bind_some, h]
  obtain ⟨before, fsigns, last⟩ := f
  -- a single operand takes the sign itself; of several, the first does
  cases before with
  | nil => simp [Flat.onto, Flat.sign]
  | cons x more => simp [Flat.onto, Flat.sign, signed]

/-- Parentheses make one operand of whatever they hold. -/
theorem Reads.group (h : Reads ts f) :
    Reads (.opening .round :: (ts ++ [.closing .round])) (.single f.reading) := by
  intro frames done signs
  rw [run_cons]
  show run (.expression (⟨.round, ⟨done, signs, .empty⟩, none, []⟩ :: frames) ⟨[], [], .empty⟩) _ = _
  rw [run_append, h, bind_some, Flat.onto_start, Flat.onto, Flat.single, append_nil]
  rfl

/-- A binary operator is kept between the operands on its two sides, not grouped yet. -/
theorem Reads.joined (hf : Reads ts f) (hg : Reads us g) (harrow : ofList o ≠ "->")
    (ho : (precedences.lookup (ofList o)).isSome = true) :
    Reads (ts ++ ([.blank, .op o, .blank] ++ us)) (f.join (ofList o) g) := by
  intro frames done signs
  have hop : (f.onto done signs).op (ofList o) = some
      ⟨(f.onto done signs).done ++ [(signed (f.onto done signs).signs f.last, ofList o)], [],
        .empty⟩ := by
    simp [Progress.op, Flat.onto_slot, harrow, ho]
  rw [run_append, hf, bind_some, run_append, run_spaced, hop, map_some,
    bind_some, hg]
  obtain ⟨before, fsigns, last⟩ := f
  obtain ⟨before', gsigns, last'⟩ := g
  cases before <;> cases before' <;> simp [Flat.onto, Flat.join, signed]

/-- The arrow selects from the last operand alone. -/
theorem Reads.member (hf : Reads ts f) (w : List Char) :
    Reads (ts ++ [.blank, .op ['-', '>'], .blank, .word w])
      { f with last := .member f.last (.name (canonical (ofList w))) } := by
  intro frames done signs
  rw [run_append, hf, bind_some, Flat.onto_last]
  obtain ⟨before, fsigns, last⟩ := f
  cases before <;> rfl

/-- What stands between two arguments. -/
def separator (spaced : Bool) : List Token := if spaced then [.comma, .blank] else [.comma]

theorem skips_separator (spaced : Bool) : Skips (separator spaced) := by
  cases spaced <;> exact fun _ _ _ _ => rfl

/-- The arguments of a call are read one by one and added to those that the frame holds. -/
theorem run_arguments (h : List.Forall₂ Reads tss fs)
    (hne : tss ≠ []) (spaced : Bool) (b : Bracket) (outer : Progress) (func : Reading)
    (args : List Reading) (frames : List Frame) :
    run (.expression (⟨b, outer, some func, args⟩ :: frames) .start)
        ((separator spaced).intercalate tss ++ [.closing b]) =
      some (.expression frames
        { outer with slot := .full (call func (args ++ fs.map Flat.reading)) }) := by
  -- the arguments read so far grow with every step, so they are not fixed
  induction h generalizing args with
  | nil => exact absurd rfl hne
  | @cons ts f tss fs hf htail ih =>
    have hfirst := hf (⟨b, outer, some func, args⟩ :: frames) [] []
    rw [Flat.onto_start] at hfirst
    -- the last argument ends at the bracket, the others at a separator
    cases htail with
    | nil =>
      rw [intercalate_singleton, run_append, Progress.start, hfirst, bind_some, run_cons,
        step, stepExpression, if_pos rfl]
      rfl
    | cons hg htail' =>
      have hnext : run (.expression (⟨b, outer, some func, args⟩ :: frames)
          ⟨f.before, f.signs, .full f.last⟩) (separator spaced) =
          some (.expression (⟨b, outer, some func, args ++ [f.reading]⟩ :: frames) .start) := by
        cases spaced <;> rfl
      rw [intercalate_cons_cons, append_assoc, append_assoc, run_append,
        Progress.start, hfirst, bind_some, run_append, hnext, bind_some, ih (by simp)]
      simp

/-- A call applies the last operand alone. -/
theorem Reads.call (hf : Reads ts f)
    (hargs : List.Forall₂ Reads tss fs) (spaced : Bool) (b : Bracket) :
    Reads (ts ++ .opening b :: ((separator spaced).intercalate tss ++ [.closing b]))
      { f with last := Target.call f.last (fs.map Flat.reading) } := by
  intro frames done signs
  have hopen : step (.expression frames (f.onto done signs)) (.opening b) =
      some (.expression (⟨b, f.onto done signs, some f.last, []⟩ :: frames) .start) := by
    simp only [step, stepExpression, Flat.onto_slot]
  have hlast := Flat.onto_last f (Target.call f.last (fs.map Flat.reading)) done signs
  rw [run_append, hf, bind_some, run_cons, hopen, bind_some, hlast]
  -- without arguments the bracket closes where it opened
  cases hargs with
  | nil => cases b <;> rfl
  | cons h htail => exact run_arguments (.cons h htail) (by simp) spaced b _ _ [] frames

/-! ### Instances -/

/-- Read as the arguments of a template, the tokens name the class `s`. -/
def Makes (ts : List Token) (s : String) : Prop :=
  ∀ frames p, run (.template frames p 0 none) ts = some (.template frames p 0 (some s))

theorem makes_word (hw : ofList w ∉ ["const", "decltype"]) :
    Makes [.word w] (ofList w) := by
  intro frames p
  simp_all [run, step, stepTemplate]

theorem Makes.const (h : Makes ts s) :
    Makes (.word ['c', 'o', 'n', 's', 't'] :: .blank :: ts) s := by
  intro frames p
  exact h frames p

/-- The class stands first in a `decltype`, and the arguments behind it are passed over. -/
theorem makes_decltype (hw : ofList w ∉ ["const", "decltype"]) (h : Skips ts) :
    Makes ([.word ['d', 'e', 'c', 'l', 't', 'y', 'p', 'e'], .opening .round, .word w] ++
      (ts ++ [.closing .round])) (ofList w) := by
  intro frames p
  have hmade : run (.template frames p 0 none)
      [.word ['d', 'e', 'c', 'l', 't', 'y', 'p', 'e'], .opening .round, .word w] =
      some (.template frames p 1 (some (ofList w))) := by
    simp_all [run, step, stepTemplate]
  rw [run_append, hmade, bind_some, run_append, h, bind_some]
  rfl

/-- A function template that makes instances stands for the class. -/
theorem Makes.reads (h : Makes ts s) {maker : List Char} (hmaker : ofList maker ∈ makers) :
    Reads ([.word maker, .angle] ++ (ts ++ [.op ['>']])) (.single (.name (canonical s))) := by
  intro frames done signs
  have hcanonical : canonical (ofList maker) = ofList maker := by
    simp only [makers, mem_cons, not_mem_nil, or_false] at hmaker
    rcases hmaker with h | h <;> rw [h] <;> rfl
  have hopen : run (.expression frames ⟨done, signs, .empty⟩) [.word maker, .angle] =
      some (.template frames ⟨done, signs, .full (.name (ofList maker))⟩ 0 none) := by
    simp [run, step, stepExpression, Progress.word, hcanonical, hmaker]
  rw [run_append, hopen, bind_some, run_append, h, bind_some, Flat.onto, Flat.single,
    append_nil]
  rfl

/-! ### Grouping -/

mutual
/-- The number of names and numbers in an expression. -/
def Reading.leaves : Reading → Nat
  | .name _ => 1
  | .prefixed _ arg => arg.leaves
  | .infixed _ lhs rhs => lhs.leaves + rhs.leaves
  | .member target part => target.leaves + part.leaves
  | .index target place => target.leaves + place.leaves
  | .applied func args => func.leaves + leavesList args

def leavesList : List Reading → Nat
  | [] => 0
  | r :: rs => r.leaves + leavesList rs
end

theorem Reading.leaves_pos : ∀ r : Reading, 0 < r.leaves
  | .name _ => Nat.one_pos
  | .prefixed _ arg => arg.leaves_pos
  | .infixed _ lhs _ => Nat.add_pos_left lhs.leaves_pos _
  | .member target _ => Nat.add_pos_left target.leaves_pos _
  | .index target _ => Nat.add_pos_left target.leaves_pos _
  | .applied func _ => Nat.add_pos_left func.leaves_pos _

/-- Prefix operators add no leaves. -/
theorem leaves_signed (signs : List String) (r : Reading) : (signed signs r).leaves = r.leaves := by
  induction signs with
  | nil => rfl
  | cons s signs ih => exact ih

namespace Chain

theorem ofOperands_concat (first : Reading) (more : List (String × Reading)) (op : String)
    (r : Reading) :
    ofOperands first (more ++ [(op, r)]) = (ofOperands first more).extend op r :=
  foldl_concat ..

/-- Several operands are split at one of the operators between them, and the two parts are grouped on
    their own. -/
theorem ofOperands_split (first : Reading) {more : List (String × Reading)} (h : more ≠ []) :
    ∃ xs op y ys, more = xs ++ (op, y) :: ys ∧
      ofOperands first more = node op (ofOperands first xs) (ofOperands y ys) := by
  -- the last operand either joins the right part, or is the right part
  induction more using List.reverseRecOn with
  | nil => exact absurd rfl h
  | append_singleton more last ih =>
    obtain ⟨op', r⟩ := last
    rw [ofOperands_concat]
    by_cases hmore : more = []
    · subst hmore
      exact ⟨[], op', r, [], rfl, rfl⟩
    · obtain ⟨xs, op, y, ys, rfl, hsplit⟩ := ih hmore
      rw [hsplit, extend]
      split
      · exact ⟨xs, op, y, ys ++ [(op', r)], by simp, by rw [ofOperands_concat]⟩
      · exact ⟨xs ++ (op, y) :: ys, op', r, [], rfl, by rw [hsplit]; rfl⟩

theorem leaves_reading_extend (c : Chain) (op : String) (r : Reading) :
    (c.extend op r).reading.leaves = c.reading.leaves + r.leaves := by
  induction c with
  | leaf x => rfl
  | node outer lhs rhs _ ih =>
    rw [extend]
    split
    · simp only [reading, Reading.leaves, ih, Nat.add_assoc]
    · rfl

theorem leaves_ofOperands (first : Reading) (more : List (String × Reading)) :
    (ofOperands first more).reading.leaves = first.leaves + (more.map (·.2.leaves)).sum := by
  induction more using List.reverseRecOn with
  | nil => rfl
  | append_singleton more last ih =>
    rw [ofOperands_concat, leaves_reading_extend, ih]
    simp [Nat.add_assoc]

end Chain

/-- Operands in a row are spread part by part. -/
theorem spread_append (done done' : List (Reading × String)) (x last : Reading) (op : String) :
    spread (done ++ (x, op) :: done') last =
      ((spread done x).1,
        (spread done x).2 ++ (op, (spread done' last).1) :: (spread done' last).2) := by
  induction done with
  | nil => rfl
  | cons d done ih =>
    obtain ⟨y, o⟩ := d
    rw [cons_append, spread, ih]
    rfl

/-- Two parts of a list that hold equally many leaves end at the same place. -/
theorem eq_of_leaves_eq {xs ys : List (String × Reading)} {x y : String × Reading}
    {as bs : List (String × Reading)} (h : xs ++ x :: as = ys ++ y :: bs)
    (hleaves : (xs.map (·.2.leaves)).sum = (ys.map (·.2.leaves)).sum) :
    xs = ys ∧ x = y ∧ as = bs := by
  have hnil : ∀ zs : List (String × Reading), (zs.map (·.2.leaves)).sum = 0 → zs = [] := by
    intro zs hzs
    cases zs with
    | nil => rfl
    | cons z zs =>
      have hpos := z.2.leaves_pos
      rw [map_cons, sum_cons] at hzs
      omega
  -- one part is longer by `zs`, which holds no leaf and so is empty
  rcases append_eq_append_iff.mp h with ⟨zs, rfl, htail⟩ | ⟨zs, rfl, htail⟩
  · obtain rfl := hnil zs (by simpa using hleaves)
    simp_all
  · obtain rfl := hnil zs (by simpa using hleaves)
    simp_all

theorem group_nil (r : Reading) : group [] r = r := rfl

/-- Several operands make a binary operator. -/
theorem exists_infixed_of_group {done : List (Reading × String)} (h : done ≠ []) (last : Reading) :
    ∃ op lhs rhs, group done last = .infixed op lhs rhs := by
  obtain ⟨⟨x, o⟩, done, rfl⟩ := exists_cons_of_ne_nil h
  have hmore : (o, (spread done last).1) :: (spread done last).2 ≠ [] := by simp
  obtain ⟨xs, op, y, ys, -, hsplit⟩ := Chain.ofOperands_split x hmore
  exact ⟨op, _, _, by rw [group, spread, hsplit]; rfl⟩

/-- Grouping keeps the leaves, wherever the operands are split. -/
theorem leaves_group (done : List (Reading × String)) (last : Reading) :
    (group done last).leaves = (done.map (·.1.leaves)).sum + last.leaves := by
  rw [group, Chain.leaves_ofOperands]
  induction done with
  | nil => simp [spread]
  | cons d done ih =>
    simp only [spread, map_cons, sum_cons] at ih ⊢
    omega

/-- Two parts with an operator between them are the operands of that operator only if each of them,
    grouped on its own, is the operand.  It is enough to know how large the left operand is. -/
theorem group_append {done done' : List (Reading × String)} {x last : Reading}
    {op : String} (h : group (done ++ (x, op) :: done') last = .infixed op lhs rhs)
    (hleaves : lhs.leaves = (done.map (·.1.leaves)).sum + x.leaves) :
    group done x = lhs ∧ group done' last = rhs := by
  rw [group, spread_append] at h
  have hmore : (spread done x).2 ++ (op, (spread done' last).1) :: (spread done' last).2 ≠ [] := by
    simp
  obtain ⟨xs, op', y, ys, hsplit, hchain⟩ := Chain.ofOperands_split (spread done x).1 hmore
  rw [hchain, Chain.reading, Reading.infixed.injEq] at h
  obtain ⟨rfl, rfl, rfl⟩ := h
  rw [Chain.leaves_ofOperands, ← leaves_group, group, Chain.leaves_ofOperands] at hleaves
  -- the operator that splits the chain is the one that the leaves are counted up to
  obtain ⟨hxs, hy, hys⟩ := eq_of_leaves_eq hsplit (by omega)
  obtain rfl : (spread done' last).1 = y := (Prod.mk.inj hy).2
  subst hxs
  subst hys
  exact ⟨rfl, rfl⟩

/-! ### Operands and the expression that they make -/

/-- Neither a binary nor a prefix operator. -/
def Reading.isPostfix : Reading → Bool
  | .prefixed _ _ | .infixed _ _ _ => false
  | _ => true

namespace Flat

theorem leaves_reading (f : Flat) :
    f.reading.leaves = (f.before.map (·.1.leaves)).sum + f.last.leaves := by
  rw [reading, leaves_group, leaves_signed]

theorem IsClosed.reading (h : f.IsClosed) : f.reading = f.last := by
  rw [Flat.reading, h.1, h.2]
  rfl

/-- Operands make an expression that is no operator only if there is just one of them. -/
theorem reading_eq_iff (hr : r.isPostfix = true) : f.reading = r ↔ f.IsClosed ∧ f.last = r := by
  constructor
  · intro h
    have hbefore : f.before = [] := by
      by_contra hne
      obtain ⟨op, lhs, rhs, hgroup⟩ := exists_infixed_of_group hne (signed f.signs f.last)
      rw [← h, reading, hgroup] at hr
      cases hr
    rw [reading, hbefore, group_nil] at h
    cases hsigns : f.signs with
    | nil =>
      rw [hsigns] at h
      exact ⟨⟨hbefore, hsigns⟩, h⟩
    | cons s signs =>
      rw [← h, hsigns] at hr
      cases hr
  · rintro ⟨hclosed, hlast⟩
    rw [hclosed.reading, hlast]

theorem not_isClosed_sign (op : String) (f : Flat) : ¬(f.sign op).IsClosed := by
  obtain ⟨before, signs, last⟩ := f
  cases before <;> simp [sign, IsClosed]

theorem last_sign (op : String) (f : Flat) : (f.sign op).last = f.last := by
  obtain ⟨before, signs, last⟩ := f
  cases before <;> rfl

theorem leaves_sign (op : String) (f : Flat) : (f.sign op).reading.leaves = f.reading.leaves := by
  obtain ⟨before, signs, last⟩ := f
  rw [leaves_reading, leaves_reading]
  cases before <;> rfl

/-- A prefix operator belongs to the first operand alone. -/
theorem reading_sign_eq_iff {op : String} :
    (f.sign op).reading = .prefixed op r ↔ f.before = [] ∧ f.reading = r := by
  obtain ⟨before, signs, last⟩ := f
  cases before with
  | nil =>
    show Reading.prefixed op (signed signs last) = .prefixed op r ↔ _ ∧ signed signs last = r
    simp
  -- several operands make a binary operator, which no prefix operator is
  | cons x more =>
    have hne : (Flat.sign op ⟨x :: more, signs, last⟩).before ≠ [] := by simp [sign]
    obtain ⟨o, lhs, rhs, hgroup⟩ := exists_infixed_of_group hne (signed signs last)
    constructor
    · intro h
      rw [show (Flat.sign op ⟨x :: more, signs, last⟩).reading = .infixed o lhs rhs from hgroup] at h
      cases h
    · simp

theorem not_isClosed_join (op : String) (f g : Flat) : ¬(f.join op g).IsClosed := by
  simp [join, IsClosed]

/-- The leaves of two parts are those of both. -/
theorem leaves_join (op : String) (f g : Flat) :
    (f.join op g).reading.leaves = f.reading.leaves + g.reading.leaves := by
  rw [leaves_reading, leaves_reading, leaves_reading, join]
  simp [leaves_signed, Nat.add_assoc]

/-- Two parts with an operator between them are its operands if neither has a binary operator that is
    not in parentheses, and only if each of them is the operand. -/
theorem reading_join_eq_iff {op : String}
    (hleaves : f.reading.leaves = lhs.leaves) (hf : f.reading = lhs → f.before = [])
    (hg : g.reading = rhs → g.before = []) :
    (f.join op g).reading = .infixed op lhs rhs ↔ f.reading = lhs ∧ g.reading = rhs := by
  constructor
  · intro h
    refine group_append h ?_
    rw [← hleaves, leaves_reading, leaves_signed]
  · rintro ⟨hl, hr⟩
    have hjoin : f.join op g = ⟨[(signed f.signs f.last, op)], g.signs, g.last⟩ := by
      rw [join, hf hl, hg hr]
      rfl
    rw [reading, hf hl, group_nil] at hl
    rw [reading, hg hr, group_nil] at hr
    rw [hjoin, ← hl, ← hr]
    rfl

/-- If the last operand is no library function, neither is the whole expression. -/
theorem call_reading (h : ∀ args, call f.last args = .applied f.last args)
    (args : List Reading) : call f.reading args = .applied f.reading args := by
  cases hr : f.reading with
  | name s =>
    have hlast := ((reading_eq_iff rfl).mp hr).2
    rw [← hlast]
    exact h args
  -- only names are library functions
  | _ => rfl

end Flat

end Cppward.Target
