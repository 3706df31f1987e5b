import Cppward.Proofs.Emit.Run

namespace Cppward.Emit

open Analysis Gen

/-!
# The code of operators and calls

For every kind of expression, the code of a node in terms of the code of its parts.

* `emitOperator_eq_ok`, `emitUnary_eq_ok`, `emitIndex_eq_ok`, `emitMethodCall_eq_ok`,
  `emitPlainCall_eq_ok` — operators, indices and calls,
* `emitName_eq_ok` — names.
-/

variable {op name s : String}
variable {e : Emitter} {n : Node} {cx : Context} {g : Generator} {r : String × Generator}

variable (p : Program)

/-- The operator that holds a node wants its operands in parentheses. -/
def inParens (n : Node) : Bool :=
  ((p.parent? n).map fun h =>
    (h.isBinary || h.isUnary) && !(h.isScope || h.isArrow || h.isAttribute)).getD false

/-- The classes of binary operators that are written between their operands. -/
def isWritten : Binary → Bool
  | .plain | .arrow | .bitOr | .equals => true
  | _ => false

def parens (s : String) : String := "(" ++ s ++ ")"

/-- An operator is written between its operands, in parentheses where its holder wants them. -/
theorem emitOperator_eq_ok {cls : Binary} {lhs rhs : Node} (hargs : n.args = [lhs, rhs])
    (hkind : n.kind = .binary cls op) (hcls : isWritten cls = true)
    (h : emitOperator e n cls op cx g = .ok r) :
    ∃ left g₁ right, e.node lhs cx g = .ok (left, g₁) ∧ e.node rhs cx g₁ = .ok (right, r.2) ∧
      r.1 = if inParens r.2.program n then parens (left ++ " " ++ operatorText op ++ " " ++ right)
        else left ++ " " ++ operatorText op ++ " " ++ right := by
  have hcomment : isComment n = false := by
    simp only [isComment, Node.isScope, Node.binary?, hkind]
    cases cls <;> simp_all [isWritten]
  have hwritten : emitOperator e n cls op cx = (do
      let left ← e.node lhs cx
      let right ← e.node rhs cx
      nested n (fun h => h.isScope || h.isArrow || h.isAttribute)
        (left ++ " " ++ operatorText op ++ " " ++ right)) := by
    unfold emitOperator
    rw [hargs]
    cases cls <;> simp_all [isWritten]
  rw [hwritten] at h
  obtain ⟨left, g₁, hleft, h⟩ := bind_eq_ok.mp h
  obtain ⟨right, g₂, hright, h⟩ := bind_eq_ok.mp h
  refine ⟨left, g₁, right, hleft, ?_⟩
  have hnested : nested n (fun h => h.isScope || h.isArrow || h.isAttribute)
      (left ++ " " ++ operatorText op ++ " " ++ right) g₂ = .ok
        (if inParens g₂.program n then parens (left ++ " " ++ operatorText op ++ " " ++ right)
          else left ++ " " ++ operatorText op ++ " " ++ right, g₂) := rfl
  rw [hnested, Except.ok.injEq] at h
  subst h
  exact ⟨hright, rfl⟩

/-- Every prefix operator but `not` gets parentheses of its own. -/
theorem emitUnary_eq_ok {arg : Node} (hop : op ≠ ":") (h : emitUnary e op arg cx g = .ok r) :
    ∃ code, e.node arg cx g = .ok (code, r.2) ∧
      r.1 = if op = "not" then "!" ++ code else parens (op ++ code) := by
  unfold emitUnary at h
  simp only [beq_iff_eq, hop, if_false] at h
  obtain ⟨code, g₁, hcode, h⟩ := bind_eq_ok.mp h
  rw [pure_eq_ok] at h
  subst h
  refine ⟨code, hcode, ?_⟩
  split <;> simp [parens, String.append_assoc]

/-- An index is written as a checked access, and only with one argument. -/
theorem emitIndex_eq_ok (h : emitIndex e n cx g = .ok r) :
    ∃ func arg target g₁ place, n.func = some func ∧ n.args = [arg] ∧
      e.node func cx g = .ok (target, g₁) ∧ e.node arg cx g₁ = .ok (place, r.2) ∧
      r.1 = "ceto::bounds_check(" ++ target ++ "," ++ place ++ ")" := by
  unfold emitIndex at h
  -- any number of arguments but one is refused
  split at h
  · obtain ⟨_, _, hrefuse, -⟩ := bind_eq_ok.mp h
    exact absurd hrefuse refuseBare_ne_ok
  · rename_i hlen
    obtain ⟨func, _, hneed, h⟩ := bind_eq_ok.mp h
    obtain ⟨hfunc, rfl⟩ := need_eq_ok.mp hneed
    obtain ⟨target, g₁, htarget, h⟩ := bind_eq_ok.mp h
    obtain ⟨arg, _, hneed, h⟩ := bind_eq_ok.mp h
    obtain ⟨harg, rfl⟩ := need_eq_ok.mp hneed
    obtain ⟨place, g₂, hplace, h⟩ := bind_eq_ok.mp h
    rw [pure_eq_ok] at h
    subst h
    have hargs : n.args = [arg] := by
      cases hns : n.args with
      | nil => simp [hns] at harg
      | cons a as => cases as <;> simp_all
    exact ⟨func, arg, target, g₁, place, hfunc, hargs, htarget, hplace, rfl⟩

theorem nodes_eq_ok {ns : List Node} (h : e.nodes ns cx g = .ok r) :
    ∃ codes, ns.mapM (e.node · cx) g = .ok (codes, r.2) ∧ r.1 = commas codes := by
  unfold Emitter.nodes at h
  obtain ⟨codes, g₁, hcodes, h⟩ := bind_eq_ok.mp h
  rw [pure_eq_ok] at h
  subst h
  exact ⟨codes, hcodes, rfl⟩

/-- A call of anything but a name or a member is written part by part. -/
theorem emitMethodCall_eq_ok {func : Node} (hfunc : n.func = some func)
    (hchain : (func.isAttribute || func.isScope) = false) (h : emitMethodCall e n cx g = .ok r) :
    ∃ code g₁ codes, e.node func cx g = .ok (code, g₁) ∧
      n.args.mapM (e.node · cx) g₁ = .ok (codes, r.2) ∧ r.1 = code ++ parens (commas codes) := by
  unfold emitMethodCall at h
  rw [hfunc, need_some, pure_bind] at h
  obtain ⟨_, _, hscope, h⟩ := bind_eq_ok.mp h
  cases hscope
  simp only [hchain, Bool.false_eq_true, if_false] at h
  obtain ⟨code, g₁, hcode, h⟩ := bind_eq_ok.mp h
  obtain ⟨args, g₂, hargs, h⟩ := bind_eq_ok.mp h
  rw [pure_eq_ok] at h
  subst h
  obtain ⟨codes, hcodes, rfl⟩ := nodes_eq_ok hargs
  exact ⟨code, g₁, codes, hcode, hcodes, by simp [parens, String.append_assoc]⟩

/-- The code of a new instance of the class `c`. -/
def instanceText (c : ClassEntry) (isConst isEmpty : Bool) (name args : String) : String :=
  let curly := if isEmpty then parens args else braced args
  if c.isStruct then name ++ curly
  else
    "ceto::" ++ (if c.isUnique then "make_unique_propagate_const" else "make_shared_propagate_const")
      ++ "<" ++ (if isConst then "const " else "") ++
      (if c.isConcrete then name else "decltype(" ++ name ++ curly ++ ")") ++ ">" ++ parens args

theorem readsOnly_makesConst (n : Node) : Gen.ReadsOnly (makesConst n) := by
  unfold makesConst
  split
  · exact readsOnly_pure _
  · refine (readsOnly_parent n).bind fun holder => ?_
    split
    · split
      · split <;> exact readsOnly_pure _
      · exact readsOnly_pure _
    · exact readsOnly_pure _

/-- An instance is written in one of the forms of `instanceText`, and nothing is recorded. -/
theorem emitInstance_eq_ok {c : ClassEntry} {args : String}
    (h : emitInstance n c name args g = .ok r) :
    ∃ isConst, r = (instanceText c isConst n.args.isEmpty name args, g) := by
  unfold emitInstance at h
  dsimp only at h
  split at h
  · rename_i hstruct
    rw [pure_eq_ok] at h
    exact ⟨true, by rw [h, instanceText, if_pos hstruct]; rfl⟩
  · rename_i hstruct
    obtain ⟨isConst, g₁, hconst, h⟩ := bind_eq_ok.mp h
    obtain rfl : g = g₁ := readsOnly_makesConst n g _ hconst
    rw [pure_eq_ok] at h
    exact ⟨isConst, by rw [h, instanceText, if_neg hstruct]; rfl⟩

/-- The words that stand for a construct of the language when they are called. -/
def constructWords : List String :=
  ["if", "def", "operator", "include", "throw", "requires", "asinstance", "isinstance", "namespace",
    "defmacro", "unsafe", "ceto_private_module_boundary", "overparenthesized_decltype", "lambda",
    "decltype", "static_assert"]

/-- A call of a name makes an instance where the name is that of a class. -/
theorem emitPlainCall_eq_ok (hname : name ∉ constructWords)
    (h : emitPlainCall e n name cx g = .ok r) :
    ∃ codes, n.args.mapM (e.node · cx) g = .ok (codes, r.2) ∧
      (r.1 = name ++ parens (commas codes) ∨
        ∃ c isConst, r.1 = instanceText c isConst n.args.isEmpty name (commas codes)) := by
  have hassert : name ≠ "static_assert" := by rintro rfl; exact hname (by decide)
  have hdecltype : name ≠ "decltype" := by rintro rfl; exact hname (by decide)
  unfold emitPlainCall emitArguments at h
  simp only [beq_iff_eq, hassert, hdecltype, if_false] at h
  obtain ⟨args, g₁, hargs, h⟩ := bind_eq_ok.mp h
  obtain ⟨codes, hcodes, rfl⟩ := nodes_eq_ok hargs
  obtain ⟨c, g₂, hclass, h⟩ := bind_eq_ok.mp h
  obtain rfl : g₁ = g₂ := by cases hclass; rfl
  -- a name that is no class is written as it is, unless no function of that name is known
  cases c with
  | some c =>
    obtain ⟨isConst, rfl⟩ := emitInstance_eq_ok h
    exact ⟨codes, hcodes, .inr ⟨c.entry, isConst, rfl⟩⟩
  | none =>
    suffices hr : r = (name ++ parens (commas codes), g₁) by
      subst hr
      exact ⟨codes, hcodes, .inl rfl⟩
    obtain ⟨_, _, hscope, h⟩ := bind_eq_ok.mp h
    cases hscope
    split at h
    · obtain ⟨_, g₂, hneed, h⟩ := bind_eq_ok.mp h
      obtain ⟨-, rfl⟩ := need_eq_ok.mp hneed
      obtain ⟨_, g₂, hscope, h⟩ := bind_eq_ok.mp h
      obtain rfl : g₁ = g₂ := readsOnly_scopeOf n g₁ _ hscope
      simp only [bind_eq_ok, program_apply, Except.ok.injEq, Prod.mk.injEq] at h
      obtain ⟨_, _, ⟨rfl, rfl⟩, _, _, ⟨rfl, rfl⟩, h⟩ := h
      split at h
      · obtain ⟨_, _, hrefuse, -⟩ := bind_eq_ok.mp h
        exact absurd hrefuse refuse_ne_ok
      · exact pure_eq_ok.mp h
    · exact pure_eq_ok.mp h

theorem emitConstruct_eq_none (hname : name ∉ constructWords) :
    emitConstruct e n name cx = pure none := by
  unfold emitConstruct
  split <;> first | rfl | exact absurd (by decide) hname

theorem emitCall_name (hlambda : n.isLambda = false) (hname : n.funcName? = some name)
    (hconstruct : name ∉ constructWords) : emitCall e n cx = emitPlainCall e n name cx := by
  unfold emitCall
  rw [hlambda, hname]
  simp only [Bool.false_eq_true, if_false, emitConstruct_eq_none hconstruct, pure_bind]

theorem emitCall_func (hlambda : n.isLambda = false) (hname : n.funcName? = none) :
    emitCall e n cx = emitMethodCall e n cx := by
  unfold emitCall
  rw [hlambda, hname]
  rfl

/-! ### Names -/

/-- The node names a class whose instances are held by pointers. -/
def pointsTo (cx : Context) (n : Node) : Bool :=
  (classNamed p cx n).any fun c => !(c.index.isSome && c.entry.isStruct)

/-- The node that holds a node is an operator of one of the given classes. -/
def heldBy (n : Node) (classes : List Binary) : Bool :=
  ((p.parent? n).map fun h => (h.binary?.map classes.contains).getD false).getD false

def isSelectedFrom (n : Node) : Bool :=
  ((p.parent? n).map fun h => (h.binary?.map [Binary.attribute, Binary.scope].contains).getD false &&
    h.args[0]?.map Node.id == some n.id).getD false

/-- The texts that a name may be written as. -/
def spellings (s : String) : List String :=
  match s with
  | "None" => ["nullptr"]
  | "True" => ["true"]
  | "False" => ["false"]
  | "string" => ["string", "std::string"]
  | s => [s]

/-- A name that has no special text where it stands. -/
def isPlainText (n : Node) : Bool :=
  match n.name? with
  | some "None" | some "True" | some "False" | none => false
  | some "string" => heldBy p n [.attribute, .scope, .arrow]
  | some _ => true

/-- A name that is written as the pointer to the class of that name. -/
def isPointer (cx : Context) (n : Node) : Bool :=
  isPlainText p n && (!isSelectedFrom p n && pointsTo p cx n)

/-- The pointer that a class is written as, up to what it points to. -/
def pointerStart (isUnique : Bool) : String :=
  "ceto::propagate_const" ++ "<" ++ (if isUnique then "std::unique_ptr" else "std::shared_ptr") ++ "<<"

/-- A class is written as a pointer unless it is a structure of the program. -/
theorem pointerText_eq_ok {r : Option (String × String) × Generator}
    (h : pointerText cx (some n) g = .ok r) :
    g = r.2 ∧ (pointsTo g.program cx n = false ∧ r.1 = none ∨
      pointsTo g.program cx n = true ∧ ∃ isUnique, r.1 = some (pointerStart isUnique, ">>")) := by
  unfold pointerText at h
  have hlookup : Gen.lookupClass cx (some n) g = .ok (classNamed g.program cx n, g) := rfl
  obtain ⟨c, _, hclass, h⟩ := bind_eq_ok.mp h
  rw [hlookup] at hclass
  cases hclass
  unfold pointsTo
  -- classes from elsewhere have no index, so they are pointers
  cases hnamed : classNamed g.program cx n with
  | none =>
    rw [hnamed] at h
    obtain rfl := pure_eq_ok.mp h
    exact ⟨rfl, .inl ⟨rfl, rfl⟩⟩
  | some c =>
    rw [hnamed] at h
    dsimp only at h
    split at h
    · rename_i hstruct
      obtain rfl := pure_eq_ok.mp h
      exact ⟨rfl, .inl ⟨by rw [Option.any_some, hstruct]; rfl, rfl⟩⟩
    · rename_i hstruct
      have hpoints : (some c).any (fun c => !(c.index.isSome && c.entry.isStruct)) = true := by
        rw [Option.any_some, Bool.not_eq_true _ |>.mp hstruct]
        rfl
      split at h
      · obtain rfl := pure_eq_ok.mp h
        exact ⟨rfl, .inr ⟨hpoints, true, rfl⟩⟩
      · obtain rfl := pure_eq_ok.mp h
        exact ⟨rfl, .inr ⟨hpoints, false, rfl⟩⟩

theorem readsOnly_isUniqueVariable (n : Node) (cx : Context) :
    Gen.ReadsOnly (isUniqueVariable n cx) := by
  have hclass : ∀ m : Option Node, Gen.ReadsOnly (do
      return ((← Gen.lookupClass cx m).map (·.entry.isUnique)).getD false) :=
    fun m => (readsOnly_lookupClass cx m).bind fun _ => readsOnly_pure _
  have hdefines : ∀ d : Node, Gen.ReadsOnly (definesUnique d cx) := by
    intro d
    unfold definesUnique
    refine (hclass _).bind fun b => ?_
    split
    · exact readsOnly_pure _
    · split
      · exact readsOnly_pure _
      · split
        · split
          · exact hclass _
          · exact readsOnly_pure _
        · exact readsOnly_pure _
  -- the definitions are asked first, then an assignment that holds the name
  unfold isUniqueVariable
  refine readsOnly_program.bind fun p => ?_
  split
  · exact readsOnly_pure _
  · refine (readsOnly_findDefs n n).bind fun defs => ?_
    refine (readsOnly_anyM (fun d : Definition =>
      (readsOnly_nodeOf d.defining).bind fun node => hdefines node) _).bind fun b => ?_
    split
    · exact readsOnly_pure _
    · refine (readsOnly_parent n).bind fun holder => ?_
      split
      · split
        · exact hdefines _
        · exact readsOnly_pure _
      · exact readsOnly_pure _

theorem readsOnly_isField (n : Node) : Gen.ReadsOnly (isField n) :=
  (readsOnly_findDef n n).bind fun _ => readsOnly_pure _

/-- Only a name that may be moved from is a last use. -/
theorem isLastUse_eq_ok {b : Bool} {g' : Generator} (h : Gen.isLastUse n g = .ok (b, g')) :
    g = g' ∧ (b = true → Program.isMovable n (g.program.parent? n) = true) := by
  unfold Gen.isLastUse at h
  obtain ⟨p, _, hp, h⟩ := bind_eq_ok.mp h
  cases hp
  cases hlast : g.program.isLastUse n with
  | error e =>
    rw [hlast] at h
    cases h
  | ok b' =>
    rw [hlast] at h
    cases pure_eq_ok.mp h
    refine ⟨rfl, fun hb => ?_⟩
    unfold Program.isLastUse at hlast
    dsimp only at hlast
    split at hlast
    · cases hlast
    · rw [Except.ok.injEq, hb, Bool.and_eq_true] at hlast
      exact hlast.1

theorem moved_eq_ok (h : (do
      if ← Gen.isLastUse n then
        if ← isUniqueVariable n cx then return "std::move(" ++ s ++ ")" else return s
      else return s) g = .ok r) :
    g = r.2 ∧ (r.1 = s ∨
      r.1 = "std::move(" ++ s ++ ")" ∧ Program.isMovable n (g.program.parent? n) = true) := by
  obtain ⟨b, _, hlast, h⟩ := bind_eq_ok.mp h
  obtain ⟨rfl, hmovable⟩ := isLastUse_eq_ok hlast
  split at h
  · rename_i hb
    obtain ⟨b', g', hunique, h⟩ := bind_eq_ok.mp h
    obtain rfl : g = g' := readsOnly_isUniqueVariable n cx g _ hunique
    split at h <;> obtain rfl := pure_eq_ok.mp h
    · exact ⟨rfl, .inr ⟨rfl, hmovable hb⟩⟩
    · exact ⟨rfl, .inl rfl⟩
  · obtain rfl := pure_eq_ok.mp h
    exact ⟨rfl, .inl rfl⟩

/-- A name is a pointer, is moved from, or stands as it is. -/
theorem emitPlainName_eq_ok (h : emitPlainName n s cx g = .ok r) : g = r.2 ∧
      (((!isSelectedFrom g.program n && pointsTo g.program cx n) = true ∧
          ∃ isUnique, r.1 = pointerStart isUnique ++ "const " ++ s ++ ">>") ∨
        ((!isSelectedFrom g.program n && pointsTo g.program cx n) = false ∧
          (r.1 = s ∨ r.1 = "std::move(" ++ s ++ ")" ∧
            Program.isMovable n (g.program.parent? n) = true))) := by
  unfold emitPlainName at h
  obtain ⟨scope, _, hscope, h⟩ := bind_eq_ok.mp h
  cases hscope
  dsimp only at h
  generalize hrest : (isOperand n 0 [Binary.attribute, Binary.scope] >>= _) = rest at h
  -- the check of fields only reads
  have hrun : rest g = .ok r := by
    split at h
    · obtain ⟨b, _, hop, h⟩ := bind_eq_ok.mp h
      cases hop
      split at h
      · obtain ⟨b, g₁, hfield, h⟩ := bind_eq_ok.mp h
        obtain rfl : g = g₁ := readsOnly_isField n g _ hfield
        split at h
        · obtain ⟨_, _, hrefuse, -⟩ := bind_eq_ok.mp h
          exact absurd hrefuse refuse_ne_ok
        · exact h
      · exact h
    · exact h
  subst hrest
  obtain ⟨b, _, hop, hrun⟩ := bind_eq_ok.mp hrun
  have hselected : isOperand n 0 [Binary.attribute, Binary.scope] g =
      .ok (isSelectedFrom g.program n, g) := rfl
  rw [hselected] at hop
  cases hop
  split at hrun
  · -- What a member is selected from is never a pointer type.
    rename_i hsel
    rw [pure_bind] at hrun
    obtain ⟨rfl, hcode⟩ := moved_eq_ok hrun
    exact ⟨rfl, .inr ⟨by rw [hsel]; rfl, hcode⟩⟩
  · rename_i hsel
    rw [Bool.not_eq_true] at hsel
    obtain ⟨pointer, _, hpointer, hrun⟩ := bind_eq_ok.mp hrun
    obtain ⟨rfl, hcases⟩ := pointerText_eq_ok hpointer
    rw [hsel, Bool.not_false, Bool.true_and]
    rcases hcases with ⟨hpoints, rfl⟩ | ⟨hpoints, isUnique, rfl⟩
    · obtain ⟨rfl, hcode⟩ := moved_eq_ok hrun
      exact ⟨rfl, .inr ⟨hpoints, hcode⟩⟩
    · obtain rfl := pure_eq_ok.mp hrun
      exact ⟨rfl, .inl ⟨hpoints, isUnique, rfl⟩⟩

/-- A name is written as one of its spellings, as a pointer, or as moved from. -/
theorem emitName_eq_ok (hkind : n.kind = .name s) (hdots : s ≠ "...")
    (h : emitName n s cx g = .ok r) : g = r.2 ∧
      ((isPointer g.program cx n = true ∧
          ∃ isUnique, r.1 = pointerStart isUnique ++ "const " ++ s ++ ">>") ∨
        (isPointer g.program cx n = false ∧
          (r.1 ∈ spellings s ∨ r.1 = "std::move(" ++ s ++ ")" ∧ s ∈ spellings s ∧
            Program.isMovable n (g.program.parent? n) = true))) := by
  have hname : n.name? = some s := by rw [Node.name?, hkind]
  -- Words with a text of their own come first, then `string`, whose text depends on the holder.
  unfold emitName at h
  unfold isPointer isPlainText
  rw [hname]
  split at h
  · exact absurd h refuse_ne_ok
  · exact absurd h refuse_ne_ok
  · obtain rfl := pure_eq_ok.mp h
    exact ⟨rfl, .inr ⟨rfl, .inl (List.mem_singleton_self _)⟩⟩
  · obtain rfl := pure_eq_ok.mp h
    exact ⟨rfl, .inr ⟨rfl, .inl (List.mem_singleton_self _)⟩⟩
  · obtain rfl := pure_eq_ok.mp h
    exact ⟨rfl, .inr ⟨rfl, .inl (List.mem_singleton_self _)⟩⟩
  · exact absurd rfl hdots
  · -- `string` stands as it is where it names a member
    obtain ⟨b, _, hop, h⟩ := bind_eq_ok.mp h
    have hheld : isInOperator n [.attribute, .scope, .arrow] g =
        .ok (heldBy g.program n [.attribute, .scope, .arrow], g) := rfl
    rw [hheld] at hop
    cases hop
    split at h
    · rename_i hb
      obtain ⟨rfl, ⟨hpointer, hcode⟩ | ⟨hpointer, hcode⟩⟩ := emitPlainName_eq_ok h
      · exact ⟨rfl, .inl ⟨by simp [hb, hpointer], hcode⟩⟩
      · refine ⟨rfl, .inr ⟨by simp [hb, hpointer], ?_⟩⟩
        rcases hcode with hcode | ⟨hcode, hmovable⟩
        · exact .inl (by rw [hcode]; decide)
        · exact .inr ⟨hcode, by decide, hmovable⟩
    · rename_i hb
      obtain rfl := pure_eq_ok.mp h
      exact ⟨rfl, .inr ⟨by simp [hb], .inl (List.mem_cons_of_mem _ (List.mem_singleton_self _))⟩⟩
  · -- any other word is its own only spelling
    rename_i hnone htrue hfalse _ hstring
    have hs : s ∈ spellings s := by
      unfold spellings
      split <;> simp_all
    have hplain : (match some s with
        | some "None" | some "True" | some "False" | none => false
        | some "string" => heldBy g.program n [.attribute, .scope, .arrow]
        | some _ => true) = true := by
      split <;> simp_all
    rw [hplain, Bool.true_and]
    obtain ⟨rfl, ⟨hpointer, hcode⟩ | ⟨hpointer, hcode⟩⟩ := emitPlainName_eq_ok h
    · exact ⟨rfl, .inl ⟨hpointer, hcode⟩⟩
    · refine ⟨rfl, .inr ⟨hpointer, ?_⟩⟩
      rcases hcode with hcode | ⟨hcode, hmovable⟩
      · exact .inl (by rw [hcode]; exact hs)
      · exact .inr ⟨hcode, hs, hmovable⟩

/-- A node that is up to date and has no declared type is written by its kind. -/
theorem emitNode_apply (hcurrent : g.program.current n = n) (htype : n.type = none) :
    emitNode e n cx g = emitUntyped e n cx g := by
  rw [emitNode, current_bind, hcurrent]
  simp only [htype]

end Cppward.Emit
