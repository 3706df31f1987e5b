import Cppward.Proofs.Emit.Inversion

namespace Cppward

open Analysis Emit List Node Gen

/-!
# Loops that return

The body of a loop is written into a lambda, so a `return` in it leaves the enclosing function only if
the loop is written in the returning form: the lambda gives back what is returned, throws a marker at
the end of the loop, and the call of the lambda is itself returned.

* `Node.isValuedReturn` — a statement that returns a value,
* `IsReturningForm`, `IsPlainForm` — the two forms of a loop,
* `returningForm_emitFor` — a loop is written in the returning form exactly if a statement of its body
  is itself a `return` with a value.
-/

namespace Node

mutual
/-- A `return`, with or without a value, stands in the tree, but not in a definition inside it. -/
def containsReturn : Node → Bool
  | ⟨info, kind, func, args, type⟩ =>
    let n : Node := ⟨info, kind, func, args, type⟩
    !n.isDefinition && (n.isReturn || containsReturnList args || containsReturnOption func)

def containsReturnOption : Option Node → Bool
  | none => false
  | some n => n.containsReturn

def containsReturnList : List Node → Bool
  | [] => false
  | n :: ns => n.containsReturn || containsReturnList ns
end

def isValuedReturn (n : Node) : Bool := n.isClause && n.lhsName? == some "return"

theorem containsReturn_of_isValuedReturn {n : Node} (h : n.isValuedReturn = true) :
    n.containsReturn = true := by
  obtain ⟨info, kind, func, args, type⟩ := n
  rw [isValuedReturn, Bool.and_eq_true] at h
  obtain ⟨hclause, hname⟩ := h
  generalize hn : Node.mk info kind func args type = n at hclause hname
  have hreturn : n.isReturn = true := by simp [isReturn, isTyped, hclause, hname]
  have hcall : n.isCall = false := by
    unfold isClause binary? at hclause
    unfold isCall
    split <;> simp_all
  have hdefinition : n.isDefinition = false := by
    simp [isDefinition, isCallOfAny, isLambda, hcall]
  rw [← hn, containsReturn, hn, hreturn, hdefinition]
  rfl

end Node

namespace Emit

/-! ### Forms of a loop -/

/-- A loop as a call of a lambda that takes the range, with a result type and a last statement. -/
def loopLambda (result finish range opening body iterable : String) : String :=
  "[&](auto&& " ++ (range ++ ")" ++ result ++ "\x7b\n" ++ opening ++ body ++ "\n" ++
    "    \x7d\n" ++ "    " ++ finish ++ "\n" ++ "\x7d(" ++ iterable ++ ");\n" ++ "    ")

/-- The value of a loop is returned, unless the loop comes to its end. -/
def returnedLoop (loop : String) : String :=
  "try \x7b\n" ++ ("    return " ++ loop ++ ";\n" ++
    "\x7d catch (const ceto::EndLoopMarkerError&) \x7b\n" ++ "    ; // pass (loop end)\n" ++ "\x7d")

/-- Text moved to the right. -/
def indented (columns : Nat) (s : String) : String :=
  String.ofList (Text.indent (List.replicate columns ' ') s.toList)

/-- The form of a loop whose body returns from the enclosing function. -/
def IsReturningForm (body code : String) : Prop :=
  ∃ columns range opening iterable, code = indented columns (returnedLoop
    (loopLambda " -> decltype(auto) " "throw ceto::EndLoopMarkerError();" range opening body iterable))

/-- The form of a loop that is left at its end only. -/
def IsPlainForm (body code : String) : Prop :=
  ∃ columns range opening iterable,
    code = indented columns (loopLambda "" "" range opening body iterable)

/-- A text that starts with no blank keeps its first character behind the margin. -/
theorem exists_indent_cons {c : Char} (hc : Text.isBlank c = false) (margin cs : List Char) :
    ∃ rest, Text.indent margin (c :: cs) = margin ++ c :: rest := by
  have hbreak : Text.isLineBreak c = false := by
    by_contra hne
    rw [Bool.not_eq_false, Text.isLineBreak, contains_iff_mem] at hne
    simp only [Text.isBlank, Text.wideBlanks] at hc
    simp only [mem_cons, not_mem_nil, or_false] at hne
    rcases hne with h | h | h | h | h | h | h | h | h | h <;> rw [h] at hc <;> cases hc
  have hfirst : ∃ l ls, Text.splitLines (c :: cs) = (c :: l) :: ls := by
    unfold Text.splitLines
    split
    · rename_i heq
      cases heq
    · rename_i heq
      cases heq
      cases hbreak
    · rename_i heq
      cases heq
      rw [if_neg (by simp [hbreak])]
      split <;> exact ⟨_, _, rfl⟩
  obtain ⟨l, ls, hlines⟩ := hfirst
  refine ⟨l ++ ls.flatMap fun l => if Text.allBlank l then l else margin ++ l, ?_⟩
  simp [Text.indent, hlines, Text.allBlank, hc]

theorem head?_dropWhile_indented {c : Char} {s : String} (hs : s.toList.head? = some c)
    (hc : Text.isBlank c = false) (columns : Nat) :
    ((indented columns s).toList.dropWhile (· == ' ')).head? = some c := by
  obtain ⟨cs, hcs⟩ := head?_eq_some_iff.mp hs
  obtain ⟨rest, hrest⟩ := exists_indent_cons hc (List.replicate columns ' ') cs
  have hspace : (c == ' ') = false := by
    rw [beq_eq_false_iff_ne]
    rintro rfl
    cases hc
  rw [indented, String.toList_ofList, hcs, hrest, dropWhile_append_of_pos (by simp),
    dropWhile_cons_of_neg (by simp [hspace]), head?_cons]

theorem head?_of_isReturningForm {body code : String} (h : IsReturningForm body code) :
    (code.toList.dropWhile (· == ' ')).head? = some 't' := by
  obtain ⟨columns, range, opening, iterable, rfl⟩ := h
  refine head?_dropWhile_indented ?_ (by decide) columns
  rw [returnedLoop, String.toList_append]
  rfl

theorem head?_of_isPlainForm {body code : String} (h : IsPlainForm body code) :
    (code.toList.dropWhile (· == ' ')).head? = some '[' := by
  obtain ⟨columns, range, opening, iterable, rfl⟩ := h
  refine head?_dropWhile_indented ?_ (by decide) columns
  rw [loopLambda, String.toList_append]
  rfl

/-- The two forms differ in the first character behind the margin. -/
theorem not_isReturningForm_of_isPlainForm {body body' code : String} (h : IsPlainForm body code) :
    ¬IsReturningForm body' code := by
  intro hreturning
  have hfirst := head?_of_isPlainForm h
  rw [head?_of_isReturningForm hreturning] at hfirst
  cases hfirst

theorem code_eq (l : LoopParts) : l.code =
    if l.returns then returnedLoop (loopLambda " -> decltype(auto) "
      "throw ceto::EndLoopMarkerError();" l.range l.opening l.body l.iterable)
    else loopLambda "" "" l.range l.opening l.body l.iterable := by
  obtain ⟨range, index, size, type, target, body, iterable, returns⟩ := l
  cases returns with
  | true =>
    rw [if_pos rfl]
    unfold LoopParts.code returnedLoop loopLambda
    dsimp only
    rw [if_pos rfl, if_pos rfl, if_pos rfl]
    simp only [String.append_assoc, -String.reduceAppend]
  | false =>
    rw [if_neg Bool.false_ne_true]
    unfold LoopParts.code loopLambda
    dsimp only
    rw [if_neg Bool.false_ne_true, if_neg Bool.false_ne_true, if_neg Bool.false_ne_true]
    simp only [String.append_assoc, -String.reduceAppend]

theorem isReturningForm_code {l : LoopParts} (h : l.returns = true) (columns : Nat) :
    IsReturningForm l.body (indented columns l.code) := by
  rw [code_eq, if_pos h]
  exact ⟨columns, l.range, l.opening, l.iterable, rfl⟩

theorem isPlainForm_code {l : LoopParts} (h : l.returns = false) (columns : Nat) :
    IsPlainForm l.body (indented columns l.code) := by
  rw [code_eq, if_neg (by simp [h])]
  exact ⟨columns, l.range, l.opening, l.iterable, rfl⟩

/-- The code of a loop has the returning form exactly if it is to return. -/
theorem isReturningForm_code_iff (l : LoopParts) (columns : Nat) :
    IsReturningForm l.body (indented columns l.code) ↔ l.returns = true := by
  cases hreturns : l.returns with
  | true => exact iff_of_true (isReturningForm_code hreturns columns) rfl
  | false =>
    exact iff_of_false (not_isReturningForm_of_isPlainForm (isPlainForm_code hreturns columns))
      Bool.false_ne_true

/-! ### Loops -/

variable {e : Emitter} {n : Node} {cx : Context} {g g' : Generator} {code : String}

/-- The head of a loop, its variable and what it runs over, is generated from `g` to `g₁`. -/
def HeadRuns (e : Emitter) (head : Node) (cx : Context) (g g₁ : Generator) : Prop :=
  ∃ target iterable name range g₀, head.args = [target, iterable] ∧
    loopVariable e target cx g = .ok (name, g₀) ∧ e.node iterable cx g₀ = .ok (range, g₁)

/-- The parts of the code of a loop. -/
theorem emitFor_eq_ok (h : emitFor e n cx g = .ok (code, g')) :
    ∃ head block g₁ inner g₂ columns, ∃ l : LoopParts,
      (g.program.current n).args = [head, block] ∧ HeadRuns e head cx g g₁ ∧
      e.block block inner g₂ = .ok (l.body, g') ∧
      l.returns = (g₁.program.current block).args.any isValuedReturn ∧
      code = indented columns l.code := by
  unfold emitFor at h
  obtain ⟨n', _, hcurrent, h⟩ := bind_eq_ok.mp h
  rw [current_apply] at hcurrent
  cases hcurrent
  dsimp only at h
  generalize (g.program.current n).args = args at h ⊢
  match args with
  | [head, block] =>
    dsimp only at h
    split at h
    · obtain ⟨_, _, hrefuse, -⟩ := bind_eq_ok.mp h
      exact absurd hrefuse refuse_ne_ok
    generalize (head.isBinary && head.op? == some "in") = isIn at h
    generalize hoperands : head.args = operands at h
    match isIn, operands with
    | true, [target, iterable] =>
      dsimp only at h
      split at h
      · obtain ⟨_, _, hrefuse, -⟩ := bind_eq_ok.mp h
        exact absurd hrefuse refuse_ne_ok
      simp only [bind_eq_ok, pure_eq_ok] at h
      obtain ⟨⟨type, name⟩, g₀, hvariable, source, g₁, hiterable, range, _, hrange, index, _, hindex, size,
        g₃, hsize, indent, _, hindent, inner, g₂, hinner, _, _, hcurrent, body, _, hbody, hcode⟩ := h
      -- fresh names and a new scope leave the nodes alone
      obtain ⟨rfl, rfl⟩ := indent_eq_ok hindent
      have hnodes : g₂.program.nodes = g₁.program.nodes := by
        rw [nodes_of_enter hinner, program_of_fresh hsize, program_of_fresh hindex,
          program_of_fresh hrange]
      obtain ⟨rfl, rfl⟩ := Prod.mk.inj (Except.ok.inj hcurrent)
      obtain ⟨rfl, rfl⟩ := Prod.mk.inj hcode
      refine ⟨head, block, g₁, inner, g₂, (g₃.program.scope cx).columns,
        ⟨range, index, size, type, name, body, source,
          (g₂.program.current block).args.any isValuedReturn⟩, rfl,
        ⟨target, iterable, _, _, g₀, hoperands, hvariable, hiterable⟩, hbody, ?_, ?_⟩
      · rw [← Program.current_congr hnodes block]
      · rw [indented, String.toList_ofList]
        rfl
    | false, _ | true, [] | true, [_] | true, _ :: _ :: _ :: _ => exact absurd h refuse_ne_ok
  | [] | [_] | _ :: _ :: _ :: _ => exact absurd h refuse_ne_ok

/-- The head of a loop with a name as its variable, over an expression, leaves the state alone. -/
theorem HeadRuns.state_eq {head : Node} {k : Nat} {g₁ : Generator}
    (h : HeadRuns (emitter k) head cx g g₁) (hname : ∀ target ∈ head.args.head?, target.isIdent = true)
    (hexpr : ∀ a ∈ head.args, a.isExpression = true) (hheld : g.program.Holds head) : g₁ = g := by
  obtain ⟨target, iterable, name, range, g₀, hargs, hvariable, hrange⟩ := h
  have hparts : ∀ part ∈ head.args, g.program.Holds part := fun part hpart =>
    hheld.part (arg_mem_parts hpart)
  rw [hargs] at hname hexpr hparts
  have htarget := hexpr target (by simp)
  have htuple : target.isTuple = false := by
    have hident := hname target (by simp)
    unfold isIdent Node.name? at hident
    unfold isTuple
    split at hident <;> simp_all
  unfold loopVariable at hvariable
  rw [htuple, (isExpression_kind htarget).2] at hvariable
  obtain ⟨_, _, htext, hvariable⟩ := bind_eq_ok.mp hvariable
  cases pure_eq_ok.mp hvariable
  obtain rfl := state_of_emitted htarget (hparts target (by simp)) htext
  exact (state_of_emitted (hexpr iterable (by simp)) (hparts iterable (by simp)) hrange).symm

/-- A loop is written in the returning form exactly if a statement of its body is itself a `return` with
    a value, whatever `return` there is deeper in the body; so a loop whose body contains none at any
    depth is not written in that form.  The body is taken as the head of the loop leaves it. -/
theorem returningForm_emitFor (h : emitFor e n cx g = .ok (code, g')) :
    ∃ head block g₁ body, (g.program.current n).args = [head, block] ∧ HeadRuns e head cx g g₁ ∧
      (∃ inner g₂, e.block block inner g₂ = .ok (body, g')) ∧
      (IsReturningForm body code ↔
        (g₁.program.current block).args.any Node.isValuedReturn = true) ∧
      ((g₁.program.current block).args.any Node.containsReturn = false →
        ¬IsReturningForm body code) := by
  obtain ⟨head, block, g₁, inner, g₂, columns, l, hargs, hhead, hbody, hreturns, rfl⟩ :=
    emitFor_eq_ok h
  have hform := isReturningForm_code_iff l columns
  rw [hreturns] at hform
  refine ⟨head, block, g₁, l.body, hargs, hhead, ⟨inner, g₂, hbody⟩, hform,
    fun hnone hreturning => ?_⟩
  obtain ⟨a, ha, hvalued⟩ := List.any_eq_true.mp (hform.mp hreturning)
  rw [List.any_eq_false] at hnone
  exact hnone a ha (Node.containsReturn_of_isValuedReturn hvalued)

/-- The tree of `for (x in xs: if (x: return x))`. -/
def sampleLoop : Node :=
  Node.ofCall (Node.ident "for")
    [Node.ofBinary .plain "in" (Node.ident "x") (Node.ident "xs"),
      Node.make .block none
        [Node.ofCall (Node.ident "if")
          [Node.ident "x", Node.make .block none
            [Node.ofBinary (.clause false) ":" (Node.ident "return") (Node.ident "x")]]]]

theorem exists_emitFor_sampleLoop :
    ∃ code g', emitFor (emitter 5) (alone sampleLoop).program.tree 0 (alone sampleLoop) =
      .ok (code, g') := by
  have hok : (emitFor (emitter 5) (alone sampleLoop).program.tree 0 (alone sampleLoop)).isOk = true := by
    decide +kernel
  cases h : emitFor (emitter 5) (alone sampleLoop).program.tree 0 (alone sampleLoop) with
  | ok r => exact ⟨r.1, r.2, rfl⟩
  | error failure => rw [h] at hok; cases hok

theorem returningForm_sampleLoop :
    ∃ code g', emitFor (emitter 5) (alone sampleLoop).program.tree 0 (alone sampleLoop) =
        .ok (code, g') ∧
      ∃ head block g₁ body,
        ((alone sampleLoop).program.current (alone sampleLoop).program.tree).args = [head, block] ∧
        HeadRuns (emitter 5) head 0 (alone sampleLoop) g₁ ∧
        (∃ inner g₂, (emitter 5).block block inner g₂ = .ok (body, g')) ∧
        (IsReturningForm body code ↔
          (g₁.program.current block).args.any Node.isValuedReturn = true) ∧
        ((g₁.program.current block).args.any Node.containsReturn = false →
          ¬IsReturningForm body code) := by
  obtain ⟨code, g', hcode⟩ := exists_emitFor_sampleLoop
  exact ⟨code, g', hcode, returningForm_emitFor hcode⟩

/-- The body of the sample contains a `return`, but the loop is not written in the returning form. -/
theorem not_returningForm_sampleLoop :
    (∃ head block, (alone sampleLoop).program.tree.args = [head, block] ∧
        block.args.any Node.containsReturn = true) ∧
      ∃ code g', emitFor (emitter 5) (alone sampleLoop).program.tree 0 (alone sampleLoop) =
          .ok (code, g') ∧ ∀ body, ¬IsReturningForm body code := by
  have hheld : (alone sampleLoop).program.Holds (alone sampleLoop).program.tree :=
    Program.holds_iff_map_eq.mpr ⟨rfl, rfl⟩
  obtain ⟨code, g', hcode⟩ := exists_emitFor_sampleLoop
  obtain ⟨head, block, g₁, inner, g₂, columns, l, hargs, hhead, hbody, hreturns, rfl⟩ :=
    emitFor_eq_ok hcode
  rw [hheld.current] at hargs
  have hsimple : ((alone sampleLoop).program.tree.args.head?.all fun head =>
      head.args.head?.all Node.isIdent && head.args.all Node.isExpression) = true := by decide +kernel
  have hcontains : ((alone sampleLoop).program.tree.args.getLast?.all fun block =>
      block.args.any Node.containsReturn &&
        !((alone sampleLoop).program.current block).args.any Node.isValuedReturn) = true := by
    decide +kernel
  rw [hargs, List.head?_cons, Option.all_some, Bool.and_eq_true, Option.all_eq_true,
    List.all_eq_true] at hsimple
  rw [hargs, List.getLast?_cons_cons, List.getLast?_singleton, Option.all_some, Bool.and_eq_true,
    Bool.not_eq_true'] at hcontains
  obtain rfl := hhead.state_eq hsimple.1 hsimple.2
    (hheld.part (Node.arg_mem_parts (by rw [hargs]; exact List.mem_cons_self)))
  have hplain := isPlainForm_code (hreturns.trans hcontains.2) columns
  exact ⟨⟨head, block, hargs, hcontains.1⟩, _, g', hcode,
    fun body => not_isReturningForm_of_isPlainForm hplain⟩

end Emit
end Cppward
