import Cppward.Proofs.Evaluation.Schedule
import Cppward.Proofs.Node.Order

namespace Cppward.Node

open Evaluation List

/-!
# Uses of a variable in the order of evaluation

A trace of a tree for a name lists the uses of the name in an order in which they may be evaluated.

* Statements are evaluated in order, and of the branches of an `if` one at most, after the conditions
  before it.
* Operands and arguments are evaluated in any order, as the target language leaves it open.
* The body of a loop is evaluated again and again if the variable outlives the loop.  Otherwise every
  round has a variable of its own, and one round is looked at.
* A nested definition is evaluated where it stands, parameters first.  Conditions may turn out either way, and `return`
  is no end: a statement after it counts as evaluated.

`continues_traces_iff` finds what may come after a use on the way out from it: at every node on the
way, in the parts that may be evaluated after the one that the way comes from.
-/

variable {a holder part tree : Node} {path : List (Node × Node)}

/-! ### What is evaluated in a tree -/

/-- The parts that are evaluated with a node; a declared type is not. -/
def evaluated (n : Node) : List Node := n.func.toList ++ n.args

theorem mem_parts_of_mem_evaluated {n m : Node} (h : m ∈ n.evaluated) : m ∈ n.parts :=
  mem_append_left _ h

theorem sizeOf_lt_of_mem_evaluated {n m : Node} (h : m ∈ n.evaluated) : sizeOf m < sizeOf n := by
  obtain ⟨info, kind, func, args, type⟩ := n
  rw [Node.mk.sizeOf_spec]
  rcases mem_append.mp h with hfunc | harg
  · obtain rfl : func = some m := Option.mem_toList.mp hfunc
    rw [Option.some.sizeOf_spec]
    omega
  · have hlt : sizeOf m < sizeOf args := sizeOf_lt_of_mem harg
    omega

theorem evaluatedInduction {motive : Node → Prop}
    (step : ∀ n : Node, (∀ m ∈ n.evaluated, motive m) → motive n) (n : Node) : motive n :=
  partsInduction (fun n ih => step n fun m hm => ih m (mem_parts_of_mem_evaluated hm)) n

/-- The node `m` is evaluated in the course of `n`. -/
inductive EvaluatedIn (m : Node) : Node → Prop
  | self : EvaluatedIn m m
  | part {n part : Node} (hpart : part ∈ n.evaluated) (hm : EvaluatedIn m part) : EvaluatedIn m n

/-- A name is used in the course of `n`. -/
def Uses (name : String) (n : Node) : Prop := ∃ m, EvaluatedIn m n ∧ m.name? = some name

theorem evaluatedIn_iff {m n : Node} :
    EvaluatedIn m n ↔ m = n ∨ ∃ part ∈ n.evaluated, EvaluatedIn m part := by
  constructor
  · rintro (_ | ⟨hpart, hm⟩)
    · exact .inl rfl
    · exact .inr ⟨_, hpart, hm⟩
  · rintro (rfl | ⟨part, hpart, hm⟩)
    · exact .self
    · exact .part hpart hm

theorem EvaluatedIn.mem_walk {m n : Node} (h : EvaluatedIn m n) : m ∈ n.walk := by
  induction h with
  | self => exact m.self_mem_walk
  | part hpart _ ih => exact mem_walk_of_mem_parts (mem_parts_of_mem_evaluated hpart) ih

/-- The search of a tree covers just the evaluated nodes. -/
theorem any_eq_true_iff {test : Node → Bool} {n : Node} :
    n.any test = true ↔ ∃ m, EvaluatedIn m n ∧ test m = true := by
  have hmem : ∀ m, m ∈ n.findAll test (fun _ => false) ↔ EvaluatedIn m n ∧ test m = true := by
    intro m
    induction n using evaluatedInduction with
    | step n ih =>
      have hself : (m ∈ if test n = true then [n] else []) ↔ m = n ∧ test m = true := by
        by_cases hn : test n = true <;> aesop
      -- Nothing stops the search, so it goes through all parts.
      have hreached : ∀ a, a ∈ reached (fun _ => false) n ↔ a ∈ n.evaluated := by
        simp [reached, searched, evaluated, or_comm]
      rw [findAll_eq, if_neg Bool.false_ne_true, mem_append, hself, mem_flatMap, evaluatedIn_iff,
        or_and_right]
      simp only [hreached]
      refine or_congr_right ⟨?_, ?_⟩
      · rintro ⟨part, hpart, hm⟩
        obtain ⟨hin, htest⟩ := (ih part hpart).mp hm
        exact ⟨⟨part, hpart, hin⟩, htest⟩
      · rintro ⟨⟨part, hpart, hin⟩, htest⟩
        exact ⟨part, hpart, (ih part hpart).mpr ⟨hin, htest⟩⟩
  rw [any, Bool.not_eq_true', isEmpty_eq_false_iff_exists_mem]
  exact exists_congr hmem

/-! ### The schedule of a node -/

/-- A list of statements. -/
def isSequence (n : Node) : Bool := n.isBlock && n.func.isNone

/-- The arguments of an `if`: conditions are evaluated up to a block that is entered, which ends the
    `if`. -/
def branches : List Node → Schedule Node
  | [] => .done
  | a :: as => if a.isBlock then .choice (.part a) (branches as) else .seq (.part a) (branches as)

/-- A loop that evaluates `head` and then `round` again and again, or `single` once at most. -/
def rounds (again : Bool) (head : Node) (round single : Schedule Node) : Schedule Node :=
  .seq (.part head) (if again then .repeated round else .choice single .done)

/-- In what order the parts of a node are evaluated, for a variable that outlives the loops in
    `outlives`. -/
def schedule (outlives : Node → Bool) (n : Node) : Schedule Node :=
  if n.isSequence || n.isDefinition then .inOrder n.evaluated
  else if n.isCallOf "if" then .seq (.inOrder n.func.toList) (branches n.args)
  else match n.args with
    | [head, body] =>
      if n.isCallOf "while" then
        .seq (.inOrder n.func.toList)
          (rounds (outlives n) head (.seq (.part body) (.part head)) (.part body))
      else if n.isCallOf "for" then
        .seq (.inOrder n.func.toList) (rounds (outlives n) head (.part body) (.part body))
      else .anyOrder n.evaluated
    | _ => .anyOrder n.evaluated

theorem parts_branches (as : List Node) : (branches as).parts = as := by
  induction as with
  | nil => rfl
  | cons a as ih =>
    rw [branches]
    split <;> simp [Schedule.parts, ih]

theorem mem_parts_rounds {again : Bool} {head body : Node} {round : Schedule Node}
    (hbody : body ∈ round.parts) (hround : ∀ a ∈ round.parts, a = head ∨ a = body) :
    a ∈ (rounds again head round (.part body)).parts ↔ a = head ∨ a = body := by
  cases again with
  | false => simp [rounds, Schedule.parts]
  | true =>
    simp only [rounds, Schedule.parts, if_true, singleton_append, mem_cons]
    constructor
    · rintro (rfl | ha)
      · exact .inl rfl
      · exact hround a ha
    · rintro (rfl | rfl)
      · exact .inl rfl
      · exact .inr hbody

theorem mem_parts_schedule {outlives : Node → Bool} {n : Node} :
    a ∈ (n.schedule outlives).parts ↔ a ∈ n.evaluated := by
  rw [schedule]
  split
  · rw [Schedule.parts_inOrder]
  · split
    · simp [Schedule.parts, parts_branches, evaluated]
    · split
      · next head body hargs =>
        split
        · rw [Schedule.parts, mem_append,
            mem_parts_rounds (by simp [Schedule.parts]) (by simp [Schedule.parts, or_comm])]
          simp [evaluated, hargs]
        · split
          · rw [Schedule.parts, mem_append,
              mem_parts_rounds (by simp [Schedule.parts]) (by simp [Schedule.parts])]
            simp [evaluated, hargs]
          · rfl
      · rfl

theorem schedule_of_isSequence {outlives : Node → Bool} {n : Node} (h : n.isSequence = true) :
    n.schedule outlives = .inOrder n.args := by
  have hfunc : n.func = none := by simpa [isSequence] using (Bool.and_eq_true_iff.mp h).2
  rw [schedule, if_pos (by rw [h, Bool.true_or]), evaluated, hfunc]
  rfl

theorem Labelled.nodup_evaluated {n : Node} (h : n.Labelled) : n.evaluated.Nodup := by
  have hparts : n.parts.Nodup := h.pairwise.imp fun {a b} hab heq =>
    hab a a.self_mem_walk b b.self_mem_walk (congrArg Node.id heq)
  exact hparts.sublist (sublist_append_left _ _)

/-- No node is scheduled twice. -/
theorem distinct_schedule {outlives : Node → Bool} {n : Node} (h : n.Labelled) :
    (n.schedule outlives).Distinct := by
  have hbranches : ∀ as : List Node, (branches as).Distinct := by
    intro as
    induction as with
    | nil => trivial
    | cons a as ih =>
      rw [branches]
      split <;> exact ⟨trivial, ih⟩
  have hrounds : ∀ again head (round single : Schedule Node), round.Distinct → single.Distinct →
      (rounds again head round single).Distinct := by
    intro again head round single hround hsingle
    cases again with
    | false => exact ⟨trivial, hsingle, trivial⟩
    | true => exact ⟨trivial, hround⟩
  rw [schedule]
  split
  · exact Schedule.distinct_inOrder _
  · split
    · exact ⟨Schedule.distinct_inOrder _, hbranches _⟩
    · split
      · split
        · exact ⟨Schedule.distinct_inOrder _, hrounds _ _ _ _ ⟨trivial, trivial⟩ trivial⟩
        · split
          · exact ⟨Schedule.distinct_inOrder _, hrounds _ _ _ _ trivial trivial⟩
          · exact h.nodup_evaluated
      · exact h.nodup_evaluated

/-! ### Traces -/

open Classical in
/-- The traces of a tree for a name: the uses of the name, in an order in which they may be
    evaluated. -/
noncomputable def traces (outlives : Node → Bool) (name : String) (n : Node) : Language Node :=
  (if n.name? = some name then {[n]} else 1) *
    (n.schedule outlives).language fun m =>
      if _h : m ∈ n.evaluated then traces outlives name m else 1
termination_by sizeOf n
decreasing_by exact sizeOf_lt_of_mem_evaluated _h

section Traces

variable {outlives : Node → Bool} {name : String} {m n e : Node}

theorem traces_eq (n : Node) : traces outlives name n =
    (if n.name? = some name then {[n]} else 1) *
      (n.schedule outlives).language (traces outlives name) := by
  rw [traces]
  congr 1
  refine Schedule.language_congr fun m hm => ?_
  rw [dif_pos (mem_parts_schedule.mp hm)]

theorem meets_own : Meets (if n.name? = some name then {[n]} else 1) m ↔
    m = n ∧ n.name? = some name := by
  split
  · next hname =>
    constructor
    · rintro ⟨t, rfl, hm⟩
      exact ⟨mem_singleton.mp hm, hname⟩
    · rintro ⟨rfl, -⟩
      exact ⟨[m], rfl, mem_singleton_self m⟩
  · next hname => simp [not_meets_one, hname]

theorem not_continues_own : ¬Continues (if n.name? = some name then {[n]} else 1) m := by
  split
  · rintro ⟨t, rfl, hm⟩
    exact not_followed_singleton m n hm
  · exact not_continues_one m

theorem runs_own : Runs (if n.name? = some name then ({[n]} : Language Node) else 1) := by
  split
  · exact ⟨[n], rfl⟩
  · exact runs_one

theorem runs_traces (n : Node) : Runs (traces outlives name n) := by
  induction n using evaluatedInduction with
  | step n ih =>
    rw [traces_eq]
    exact runs_own.mul (Schedule.runs_language fun m hm => ih m (mem_parts_schedule.mp hm))

theorem meets_traces : Meets (traces outlives name n) m ↔ EvaluatedIn m n ∧ m.name? = some name := by
  induction n using evaluatedInduction with
  | step n ih =>
    have hruns : ∀ a ∈ (n.schedule outlives).parts, Runs (traces outlives name a) :=
      fun a _ => runs_traces a
    rw [traces_eq, meets_mul runs_own (Schedule.runs_language hruns), meets_own,
      Schedule.meets_language hruns, evaluatedIn_iff]
    constructor
    · rintro (⟨rfl, hname⟩ | ⟨a, ha, hm⟩)
      · exact ⟨.inl rfl, hname⟩
      · have ha := mem_parts_schedule.mp ha
        obtain ⟨hin, hname⟩ := (ih a ha).mp hm
        exact ⟨.inr ⟨a, ha, hin⟩, hname⟩
    · rintro ⟨rfl | ⟨a, ha, hin⟩, hname⟩
      · exact .inl ⟨rfl, hname⟩
      · exact .inr ⟨a, mem_parts_schedule.mpr ha, (ih a ha).mpr ⟨hin, hname⟩⟩

theorem exists_meets_traces : (∃ x, Meets (traces outlives name n) x) ↔ Uses name n :=
  exists_congr fun _ => meets_traces

/-! ### The way out from a use -/

/-- The way from `n` out to `tree`: the nodes around `n`, from the inside, each with the part of it
    that `n` is in. -/
inductive Path (tree : Node) : Node → List (Node × Node) → Prop
  | here : Path tree tree []
  | step {holder part : Node} {path : List (Node × Node)} (hpart : part ∈ holder.evaluated)
      (hpath : Path tree holder path) : Path tree part ((holder, part) :: path)

/-- At a level of the way, a use of the name may be evaluated after the part that the way comes
    from. -/
def Exposed (outlives : Node → Bool) (name : String) (level : Node × Node) : Prop :=
  ∃ later, (level.1.schedule outlives).After level.2 later ∧ Uses name later

def isExposed (outlives : Node → Bool) (name : String) (level : Node × Node) : Bool :=
  ((level.1.schedule outlives).after (·.id == level.2.id)).any (·.any (·.isNamed name))

theorem any_isNamed_iff : n.any (·.isNamed name) = true ↔ Uses name n := by
  rw [any_eq_true_iff]
  simp only [isNamed, beq_iff_eq, Uses]

theorem isExposed_iff (hlabels : holder.Labelled) (hpart : part ∈ holder.evaluated) :
    isExposed outlives name (holder, part) = true ↔ Exposed outlives name (holder, part) := by
  have hid : ∀ x ∈ (holder.schedule outlives).parts, (x.id == part.id) = true ↔ x = part := by
    intro x hx
    have hx := mem_parts_of_mem_evaluated (mem_parts_schedule.mp hx)
    rw [beq_iff_eq]
    constructor
    · intro hid
      exact hlabels.part_unique hx (mem_parts_of_mem_evaluated hpart) x.self_mem_walk
        part.self_mem_walk hid
    · rintro rfl
      rfl
  rw [isExposed, any_eq_true]
  refine exists_congr fun later => ?_
  rw [Schedule.mem_after_iff (distinct_schedule hlabels) hid, any_isNamed_iff]

theorem Path.labelled (hpath : Path tree n path) (h : tree.Labelled) : n.Labelled := by
  induction hpath with
  | here => exact h
  | step hpart _ ih => exact ih.part (mem_parts_of_mem_evaluated hpart)

/-- What is inside the start of the way is inside the part at every level. -/
theorem Path.level (hpath : Path tree n path)
    (h : tree.Labelled) (he : EvaluatedIn e n) {level : Node × Node} (hlevel : level ∈ path) :
    level.1.Labelled ∧ level.2 ∈ level.1.evaluated ∧ EvaluatedIn e level.2 := by
  induction hpath with
  | here => cases hlevel
  | step hpart hpath ih =>
    rcases mem_cons.mp hlevel with rfl | hlevel
    · exact ⟨hpath.labelled h, hpart, he⟩
    · exact ih (.part hpart he) hlevel

/-- One level: a use is followed inside the part that it is in, or by a use in another part. -/
theorem continues_traces_step (hlabels : holder.Labelled)
    (hpart : part ∈ holder.evaluated) (he : EvaluatedIn e part) (hname : e.name? = some name) :
    Continues (traces outlives name holder) e ↔
      Continues (traces outlives name part) e ∨ Exposed outlives name (holder, part) := by
  have hruns : ∀ a ∈ (holder.schedule outlives).parts, Runs (traces outlives name a) :=
    fun a _ => runs_traces a
  -- Labels make the use differ from the holder, and `part` the only part that it is in.
  have hne : e ≠ holder := fun heq =>
    hlabels.id_ne (mem_parts_of_mem_evaluated hpart) he.mem_walk (congrArg Node.id heq)
  have honly : ∀ a ∈ (holder.schedule outlives).parts, Meets (traces outlives name a) e → a = part :=
    fun a ha hmeets => hlabels.part_unique
      (mem_parts_of_mem_evaluated (mem_parts_schedule.mp ha)) (mem_parts_of_mem_evaluated hpart)
      (meets_traces.mp hmeets).1.mem_walk he.mem_walk rfl
  rw [traces_eq, continues_mul runs_own (Schedule.runs_language hruns),
    Schedule.continues_language hruns, meets_own]
  constructor
  · rintro (hown | (⟨a, ha, hcont⟩ | ⟨a, b, hafter, hmeets, hlater⟩) | ⟨⟨heq, -⟩, -⟩)
    · exact absurd hown not_continues_own
    · obtain rfl := honly a ha hcont.meets
      exact .inl hcont
    · obtain rfl := honly a hafter.mem_parts.1 hmeets
      exact .inr ⟨b, hafter, exists_meets_traces.mp hlater⟩
    · exact absurd heq hne
  · rintro (hcont | ⟨b, hafter, huses⟩)
    · exact .inr (.inl (.inl ⟨part, mem_parts_schedule.mpr hpart, hcont⟩))
    · exact .inr (.inl (.inr ⟨part, b, hafter, meets_traces.mpr ⟨he, hname⟩,
        exists_meets_traces.mpr huses⟩))

/-- The whole way: a use is followed inside the node that the way starts from, or by a use at some
    level. -/
theorem continues_traces_path (hlabels : tree.Labelled)
    (hpath : Path tree n path) (he : EvaluatedIn e n) (hname : e.name? = some name) :
    Continues (traces outlives name tree) e ↔ Continues (traces outlives name n) e ∨
      ∃ level ∈ path, Exposed outlives name level := by
  induction hpath with
  | here => simp
  | step hpart hpath ih =>
    rw [ih (.part hpart he), continues_traces_step (hpath.labelled hlabels) hpart he hname, or_assoc,
      exists_mem_cons_iff]

/-- A name that stands alone is followed by the uses at the levels around it. -/
theorem continues_traces_iff (hlabels : tree.Labelled)
    (hpath : Path tree n path) (hname : n.name? = some name) (hleaf : n.evaluated = []) :
    Continues (traces outlives name tree) n ↔ ∃ level ∈ path, Exposed outlives name level := by
  rw [continues_traces_path hlabels hpath .self hname, or_iff_right]
  have hnone : ∀ a, a ∉ (n.schedule outlives).parts := by
    intro a ha
    rw [mem_parts_schedule, hleaf] at ha
    cases ha
  have hruns : ∀ a ∈ (n.schedule outlives).parts, Runs (traces outlives name a) :=
    fun a ha => absurd ha (hnone a)
  rw [traces_eq, continues_mul runs_own (Schedule.runs_language hruns),
    Schedule.continues_language hruns]
  rintro (hown | (⟨a, ha, -⟩ | ⟨a, b, hafter, -⟩) | ⟨-, x, hx⟩)
  · exact not_continues_own hown
  · exact hnone a ha
  · exact hnone a hafter.mem_parts.1
  · obtain ⟨a, ha, -⟩ := (Schedule.meets_language hruns).mp hx
    exact hnone a ha

end Traces

end Cppward.Node
