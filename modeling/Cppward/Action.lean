import Cppward.Failure

namespace Cppward

/-!
# Actions

Computations with a state that is kept also when they fail.
-/

/-- A computation with a state of type `σ` that may fail; its effect on the state stays. -/
abbrev Action (σ : Type) := ExceptT Failure (StateM σ)

namespace Action

variable {σ τ α : Type}

/-- The result of an action, and the state after it. -/
def perform (a : Action σ α) (s : σ) : Except Failure α × σ := a.run.run s

/-- Does something with a part of the state. -/
def onPart (view : σ → τ) (put : τ → σ → σ) (a : Action τ α) : Action σ α := do
  let (result, part) := a.perform (view (← get))
  modify (put part)
  match result with
  | .ok x => return x
  | .error e => throw e

end Action

end Cppward
