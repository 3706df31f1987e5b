import Cppward.Text.Blank

namespace Cppward.Grammar

/-!
# Readers

A reader takes the text at a cursor and either fails, so that another alternative is tried at the
same place, or returns a value and the cursor after it.  Choice is ordered: once an alternative
has been taken, it is not given up again.

One operator is not allowed in the language although the grammar knows it, and meeting it is an
error of its own.  An outcome therefore carries, beside its value, whether that operator was met
by a reader whose result was wanted; readers that only look ahead do not report it.
-/

/-- A place in a text: what follows, how many characters are before it, and the last of these. -/
structure Cursor where
  rest : List Char
  pos : Nat := 0
  prev : Option Char := none
  deriving Repr, Inhabited

def Cursor.next (c : Cursor) : Cursor :=
  match c.rest with
  | [] => c
  | x :: rest => { rest, pos := c.pos + 1, prev := some x }

/-- The cursor after `n` characters. -/
def Cursor.advance : Nat → Cursor → Cursor
  | 0, c => c
  | n + 1, c => advance n c.next

/-- The cursor after the gaps that follow. -/
def Cursor.skipGaps (c : Cursor) : Cursor :=
  c.advance (c.rest.takeWhile Text.isGap).length

/-- What reading gives. -/
structure Outcome (α : Type) where
  /-- The value and the cursor after it, if the reader does not fail. -/
  value : Option (α × Cursor)
  /-- The operator that is not allowed was met. -/
  forbidden : Bool := false

/-- A reader of values of type `α`. -/
def Reader (α : Type) : Type := Cursor → Outcome α

namespace Reader

variable {α β : Type}

protected def pure (a : α) : Reader α := fun c => { value := some (a, c) }

protected def bind (p : Reader α) (f : α → Reader β) : Reader β := fun c =>
  match p c with
  | ⟨none, w⟩ => ⟨none, w⟩
  | ⟨some (a, c'), w⟩ =>
    let r := f a c'
    ⟨r.value, w || r.forbidden⟩

instance : Monad Reader where
  pure := Reader.pure
  bind := Reader.bind

def fail : Reader α := fun _ => { value := none }

/-- The second reader, at the same place, if the first one fails. -/
protected def orElse (p : Reader α) (q : Unit → Reader α) : Reader α := fun c =>
  match p c with
  | ⟨some r, w⟩ => ⟨some r, w⟩
  | ⟨none, w⟩ =>
    let r := q () c
    ⟨r.value, w || r.forbidden⟩

instance : OrElse (Reader α) where
  orElse := Reader.orElse

/-- The value of the reader, or `none` at the same place if it fails. -/
def attempt (p : Reader α) : Reader (Option α) := fun c =>
  match p c with
  | ⟨some (a, c'), w⟩ => ⟨some (some a, c'), w⟩
  | ⟨none, w⟩ => ⟨some (none, c), w⟩

/-- Like `attempt`, but a failure leaves no trace: the reader is run in earnest only if looking
    ahead shows that it succeeds. -/
def settle (p : Reader α) : Reader (Option α) := fun c =>
  match p c with
  | ⟨some (a, c'), w⟩ => ⟨some (some a, c'), w⟩
  | ⟨none, _⟩ => ⟨some (none, c), false⟩

/-- At most `n` values, as many as there are. -/
def manyUpTo (p : Reader α) : Nat → Reader (List α)
  | 0 => pure []
  | n + 1 => do
    match ← attempt p with
    | none => return []
    | some a => return a :: (← manyUpTo p n)

/-- As many values as there are; each takes at least one character. -/
def many (p : Reader α) : Reader (List α) := fun c => manyUpTo p c.rest.length c

/-- At least one value. -/
def many1 (p : Reader α) : Reader (List α) := do
  return (← p) :: (← many p)

def offset : Reader Nat := fun c => { value := some (c.skipGaps.pos, c) }

def gaps : Reader Unit := fun c => { value := some ((), c.skipGaps) }

/-- Reports the operator that is not allowed. -/
def forbid : Reader Unit := fun c => { value := some ((), c), forbidden := true }

/-- The text has ended, but for gaps. -/
def finished : Reader Unit := fun c =>
  if c.skipGaps.rest.isEmpty then { value := some ((), c) } else { value := none }

end Reader

end Cppward.Grammar
