import Cppward.Analysis.Program
import Cppward.Proofs.Node.Parts

namespace Cppward.Analysis.Program

/-!
# Trees that a program holds

The tables of a program know a tree if they have every node of it under its label, and name for every
part the node that holds it.
-/

/-- The tables have the nodes of the tree, and for every part the node that holds it. -/
def Holds (p : Program) (n : Node) : Prop :=
  ∀ m ∈ n.walk, p.current m = m ∧ ∀ part ∈ m.parts, p.parent? part = some m

variable {p : Program} {n m : Node}

theorem current_congr {q : Program} (h : p.nodes = q.nodes) (n : Node) : p.current n = q.current n := by
  rw [current, current, node?, node?, h]

theorem Holds.current (h : p.Holds n) : p.current n = n := (h n n.self_mem_walk).1

theorem Holds.parent (h : p.Holds n) (hm : m ∈ n.parts) : p.parent? m = some n :=
  (h n n.self_mem_walk).2 m hm

theorem Holds.part (h : p.Holds n) (hm : m ∈ n.parts) : p.Holds m :=
  fun x hx => h x (Node.mem_walk_of_mem_parts hm hx)

theorem holds_iff_map_eq : p.Holds n ↔ n.walk.map p.current = n.walk ∧
    n.walk.map (fun m => m.parts.map p.parent?) =
      n.walk.map fun m => m.parts.map fun _ => some m := by
  conv => rhs; lhs; rhs; rw [← List.map_id n.walk]
  simp only [List.map_inj_left, id_eq, ← forall_and]
  rfl

end Cppward.Analysis.Program
