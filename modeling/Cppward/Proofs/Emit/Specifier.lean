import Cppward.Emit.Specifier
import Mathlib.Data.List.NodupEquivFin

namespace Cppward.Emit

open List

/-!
# Groups of specifiers stand at the front

A group of specifiers is looked for by the first places of its members.  They should be found wherever
they stand side by side, but are only found at the front.

* `groupFound` — the answer that is looked for: the first places, if they are consecutive.
* `groupPlaces_eq_iff` — the answer is given exactly if it does not start behind the front.
-/

variable {α : Type} [BEq α] {group names : List α}

/-- The first places of the members of `group` in `names`, in increasing order. -/
def firstPlaces (group names : List α) : List Nat := (group.map names.idxOf).insertionSort (· ≤ ·)

/-- The first places of a group that is there as a whole, if they are consecutive. -/
def groupFound (group names : List α) : Option (List Nat) :=
  let places := firstPlaces group names
  if group.all names.contains && places == List.range' (places.headD 0) places.length then some places
  else none

variable [LawfulBEq α]

theorem mem_placesOf {i : Nat} : i ∈ placesOf group names ↔ ∃ x ∈ group, x ∈ names ∧ names.idxOf x = i := by
  rw [placesOf, mem_filter, mem_range]
  constructor
  · rintro ⟨hi, h⟩
    rw [getElem?_eq_getElem hi] at h
    simp only [Bool.and_eq_true, List.contains_iff_mem, beq_iff_eq] at h
    exact ⟨_, h.1, getElem_mem hi, h.2⟩
  · rintro ⟨x, hx, hmem, rfl⟩
    have hi := idxOf_lt_length_of_mem hmem
    refine ⟨hi, ?_⟩
    simp [hi, hx]

/-- Both lists hold the first places, in increasing order. -/
theorem placesOf_eq_firstPlaces (hgroup : group.Nodup) (hall : ∀ x ∈ group, x ∈ names) :
    placesOf group names = firstPlaces group names := by
  have hnodup : (group.map names.idxOf).Nodup := by
    refine hgroup.map_on fun x hx y hy h => ?_
    exact (idxOf_inj (hall x hx)).mp h
  have hplaces : (placesOf group names).Nodup := nodup_range.filter _
  have hperm : (placesOf group names).Perm (group.map names.idxOf) := by
    refine (perm_ext_iff_of_nodup hplaces hnodup).mpr fun i => ?_
    rw [mem_placesOf, mem_map]
    exact exists_congr fun x => ⟨fun ⟨hx, _, hi⟩ => ⟨hx, hi⟩, fun ⟨hx, hi⟩ => ⟨hx, hall x hx, hi⟩⟩
  have hsorted : (placesOf group names).Pairwise (· < ·) := pairwise_lt_range.filter _
  exact (hperm.trans (perm_insertionSort _ _).symm).eq_of_sortedLE hsorted.sortedLT.sortedLE
    sortedLE_insertionSort

/-- Places from `first` on are taken for consecutive only if `first` is the front. -/
theorem eq_drop_range_iff {first : Nat} {rest : List Nat} :
    first :: rest = (List.range (first :: rest).length).drop first ↔
      first = 0 ∧ first :: rest = List.range' first (first :: rest).length := by
  rw [range_eq_range', drop_range', Nat.zero_add, Nat.mul_one]
  constructor
  · intro h
    have hlength := congrArg List.length h
    rw [length_range', length_cons] at hlength
    obtain rfl : first = 0 := by omega
    exact ⟨rfl, h⟩
  · rintro ⟨rfl, h⟩
    exact h

/-- **Groups are found at the front only.**  The answer for a group that stands together is given if
    it starts at the front, and no other one is; so the answer is right exactly if the group does not
    stand together further on. -/
theorem groupPlaces_eq_iff (group names : List α) (hne : group ≠ []) (hgroup : group.Nodup) :
    groupPlaces group names = .ok ((groupFound group names).filter (·.head? == some 0)) ∧
      (groupPlaces group names = .ok (groupFound group names) ↔
        ∀ places ∈ groupFound group names, places.head? = some 0) := by
  have hfilter : groupPlaces group names = .ok ((groupFound group names).filter (·.head? == some 0)) := by
    unfold groupPlaces groupFound
    cases hall : group.all names.contains with
    | false => rfl
    | true =>
      have hplaces := placesOf_eq_firstPlaces hgroup (by simpa using hall)
      have hlength : (firstPlaces group names).length = group.length := by
        rw [firstPlaces, length_insertionSort, length_map]
      rw [hplaces]
      match hfirst : firstPlaces group names with
      | [] =>
        rw [hfirst] at hlength
        exact absurd (length_eq_zero_iff.mp hlength.symm) hne
      | first :: rest =>
        simp only [if_true, Bool.true_and, headD_cons, beq_iff_eq, eq_drop_range_iff]
        by_cases hzero : first = 0
        · simp only [hzero, true_and]
          split_ifs <;> rfl
        · rw [if_neg fun h => hzero h.1]
          split_ifs
          · rw [Option.filter_some_neg]
            · rfl
            · simpa using hzero
          · rfl
  refine ⟨hfilter, ?_⟩
  rw [hfilter, Except.ok.injEq]
  cases groupFound group names <;> simp

theorem groupPlaces_eq_iff_front : ["mut", "Foo"] ≠ [] ∧ ["mut", "Foo"].Nodup ∧
    (groupPlaces ["mut", "Foo"] ["Foo", "mut"] = .ok (groupFound ["mut", "Foo"] ["Foo", "mut"]) ↔
      ∀ places ∈ groupFound ["mut", "Foo"] ["Foo", "mut"], places.head? = some 0) :=
  ⟨by decide, by decide, (groupPlaces_eq_iff _ _ (by decide) (by decide)).2⟩

/-- In `static:mut:Foo` the group is not found. -/
theorem groupPlaces_behind_static : groupFound ["mut", "Foo"] ["static", "mut", "Foo"] = some [1, 2] ∧
    groupPlaces ["mut", "Foo"] ["static", "mut", "Foo"] = .ok none :=
  ⟨by decide, rfl⟩

end Cppward.Emit
