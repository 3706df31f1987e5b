import Cppward.Failure

namespace Cppward.Emit

/-!
# Groups of specifiers

Some specifiers mean something only together, as in `mut:Foo` or `weak:Foo:const`.
-/

/-- The places where the members of `group` first stand in `names`, in increasing order. -/
def placesOf {α : Type} [BEq α] (group names : List α) : List Nat :=
  (List.range names.length).filter fun i =>
    match names[i]? with
    | some x => group.contains x && names.idxOf x == i
    | none => false

/-- The places of a group of specifiers, if all its members are there and stand together at the
    front.  There is no answer for an empty group. -/
def groupPlaces {α : Type} [BEq α] (group names : List α) : Except Failure (Option (List Nat)) :=
  if group.all names.contains then
    let places := placesOf group names
    match places with
    | [] => throw .unforeseen
    | first :: _ =>
      return if places == (List.range places.length).drop first then some places else none
  else return none

end Cppward.Emit
