namespace Cppward.Emit

/-!
# Parentheses in generated text

`decltype((x))` and `decltype(x)` differ, so a text that already stands in two pairs of parentheses
is told apart from other texts.
-/

/-- Scans for two outer pairs of parentheses.  `open_` counts those that are open, `began` says that
    two have been open at once, and `ended` that the inner one of the outer two has been closed. -/
def scanDouble (open_ : Nat) (began ended : Bool) : List Char → Bool
  | [] => open_ == 0
  | '(' :: cs =>
    if ended then false else scanDouble (open_ + 1) (began || open_ == 1) ended cs
  | ')' :: cs =>
    if open_ == 0 then false
    else
      let ended := ended || open_ == 2
      if !began && open_ < 3 then false else scanDouble (open_ - 1) began ended cs
  | _ :: cs =>
    if !began && open_ < 2 || ended then false else scanDouble open_ began ended cs

/-- The text stands in two pairs of parentheses. -/
def hasOuterDoubleParens (s : String) : Bool := scanDouble 0 false false s.toList

end Cppward.Emit
