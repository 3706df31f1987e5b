import Cppward.Proofs.Cache.RoundTrip
import Cppward.Proofs.Macro.Meaning

namespace Cppward.Macro

open Evaluator Grammar List Node

/-!
# An interpreter of constructor calls

The code that a quotation becomes is run by an interpreter of constructor calls.

* `interpreter` — runs such calls, where some names stand for trees,
* `builds_interpreter` — its values are the trees that the calls write down.
-/

/-- What an expression in the body of a macro stands for. -/
inductive Result where
  | word (name : String)
  | value (v : Cache.Value)
  | wrong

namespace Result

def value? : Result → Option Cache.Value
  | .value v => some v
  | _ => none

def ofValue? (v : Option Cache.Value) : Result := (v.map .value).getD .wrong

def text? : Result → Option String
  | .value (.node n) => some n.text
  | _ => none

end Result

/-- Runs constructor calls, where some names stand for trees. -/
def interpreter (trees : String → Option Node) : Evaluator Result where
  node
    | .name "None", _, _ => .value .nothing
    | .name s, _, _ => ((trees s).map fun n => .value (.node n)).getD (.word s)
    | .str s none none, _, _ => .value (.text s)
    | .list, _, items => .ofValue? ((items.mapM Result.value?).bind Cache.Value.ofList?)
    | .binary .typed ":", _, [result, .word "Node"] => result
    | .call _, some (.word f), args => .ofValue? ((args.mapM Result.value?).bind (Cache.construct f))
    | .module, _, statements => statements.getLast?.getD .wrong
    | _, _, _ => .wrong

/-- Builds a tree anew, without places. -/
def rebuilder : Evaluator Node where
  node
    | .int digits tail => .make (.int digits (tail.map fun a => { a with loc := 0 }))
    | .float digits tail => .make (.float digits (tail.map fun a => { a with loc := 0 }))
    | .str s lead tail => .make
        (.str s (lead.map fun a => { a with loc := 0 }) (tail.map fun a => { a with loc := 0 }))
    | kind => .make kind

/-- The value of a constructor call is the tree that it writes down, without places. -/
theorem builds_interpreter {trees : String → Option Node}
    (htrees : ∀ s, isClassName s = true → trees s = none) :
    (interpreter trees).Builds fun tree : Unit → Node => .value (.node (rebuilder.value (tree ()))) := by
  have hname (s : String) (hs : isClassName s = true) (hnone : s ≠ "None") :
      (interpreter trees).name s = .word s := by
    simp only [name, interpreter]
    rw [htrees s hs]
    simp
  have haffix (a : Option Affix) : (interpreter trees).affix a =
      .value (Cache.affixValue (a.map fun a => { a with loc := 0 })) := by
    cases a with
    | none => rfl
    | some a =>
      rw [affix, call, hname "Identifier" (by decide) (by decide)]
      rfl
  have hlist (ns : List Node) :
      (interpreter trees).list (ns.map fun n => .value (.node n)) = .value (.nodes ns) := by
    have hvalues : (ns.map fun n => Result.value (.node n)).mapM Result.value? = some (ns.map .node) := by
      induction ns with
      | nil => rfl
      | cons n ns ih => simp [Result.value?, ih]
    have hitems : (interpreter trees).node .list none (ns.map fun n => .value (.node n)) =
        .value (.nodes ns) := by
      show Result.ofValue? ((List.mapM Result.value? _).bind Cache.Value.ofList?) = _
      rw [hvalues, Option.bind_some, Cache.ofList?_map_node]
      rfl
    rw [Evaluator.list, hname "Node" (by decide) (by decide), hitems]
    rfl
  have hclass (kind : Kind) : (interpreter trees).name kind.className = .word kind.className := by
    refine hname _ (isClassName_className kind) ?_
    cases kind with
    | binary cls op => cases cls <;> simp [Kind.className, Binary.className]
    | _ => simp [Kind.className]
  intro kind func args loc hkind
  have hargs : (args.map fun tree => Result.value (.node (rebuilder.value (tree ())))) =
      (args.map fun tree => rebuilder.value (tree ())).map fun n => .value (.node n) := by
    rw [map_map]
    rfl
  have hvalue : rebuilder.value (make kind (func.map (· ())) (args.map (· ())) loc) =
      rebuilder.node kind (func.map fun tree => rebuilder.value (tree ()))
        (args.map fun tree => rebuilder.value (tree ())) := by
    rw [value_eq]
    simp [Node.make, Function.comp_def]
  show _ = Result.value (.node (rebuilder.value _))
  rw [hargs, build, call, hclass, hvalue]
  have hnone : func.isSome = false → func = none := by
    rw [Option.isSome_eq_false_iff, Option.isNone_iff_eq_none]
    exact id
  cases kind with
  | name t =>
    rw [hnone hkind.2.1, length_eq_zero_iff.mp hkind.2.2]
    rfl
  | int digits tail | float digits tail =>
    rw [hnone hkind.2.2.1, length_eq_zero_iff.mp hkind.2.2.2, constructorArgs, haffix]
    cases tail <;> rfl
  | str t lead tail =>
    rw [hnone hkind.2.2.2.1, length_eq_zero_iff.mp hkind.2.2.2.2, constructorArgs, haffix, haffix]
    cases lead <;> cases tail <;> rfl
  | unary op | trailing op =>
    rw [hnone hkind.2.1, constructorArgs, hlist]
    rfl
  | binary cls op =>
    obtain ⟨-, rfl, hf⟩ := hkind
    rw [hnone hf, constructorArgs, hlist]
    unfold binaryOf
    split <;> rfl
  | call oneLiner =>
    obtain ⟨rfl, hf⟩ := hkind
    obtain ⟨f, rfl⟩ := Option.isSome_iff_exists.mp hf
    rw [constructorArgs, hlist]
    · rfl
    all_goals simp
  | index | bracedCall | template =>
    obtain ⟨f, rfl⟩ := Option.isSome_iff_exists.mp hkind
    rw [constructorArgs, hlist]
    · rfl
    all_goals simp
  | parens | wrapper =>
    rw [hnone hkind.1, constructorArgs, hlist]
    · rfl
    all_goals simp
  | _ =>
    rw [hnone hkind, constructorArgs, hlist]
    · rfl
    all_goals simp

end Cppward.Macro
